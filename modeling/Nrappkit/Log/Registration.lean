import Nrappkit.Log.Decision
/-!
# Registrations that fail

`r_log_register` enters the name before it makes the keys. What a failed call
leaves in the table, and which numbers successful calls return.
-/
open Lib Nrappkit.Registry

namespace Nrappkit.Log

/-- The table of facilities is the same. -/
structure SameTable (w w' : Logging) : Prop where
  log_type_ct : w'.log_type_ct = w.log_type_ct
  name : ∀ i < w.log_type_ct, (w'.log_types i).facility_name = (w.log_types i).facility_name
  level : ∀ i < w.log_type_ct, (w'.log_types i).level = (w.log_types i).level

/-- A call that fails leaves the table as it was, and the same call does not
return 0 after it. -/
def LeavesNoTrace (w : Logger) (f : Bytes) : Prop :=
  ∀ r o w', w.r_log_register f = some (r, o, w') → r ≠ .ok →
    SameTable w.toLogging w'.toLogging ∧ ∀ o' w'', w'.r_log_register f ≠ some (.ok, o', w'')

/-- In every sequence of calls that return 0, equal names have equal numbers and
different names different ones. -/
def Numbered (w : Logger) : Prop :=
  ∀ evs w', Run Logger.registered (fun _ _ => True) w evs w' → ∀ e ∈ evs, ∀ e' ∈ evs, e.1 = e'.1 ↔ e.2 = e'.2

/-! ## A trace -/

/-- The name is entered, and then its keys cannot be made. -/
theorem register_fails {w : Logger} {f : Bytes} (hfind : find_facility w.toLogging f = none)
    (hroom : w.log_type_ct ≠ MAX_LOG_TYPES) (hreg : w.reg_initted = true) (hf : ¬ Nameable f) :
    ∃ r w', w.r_log_register f = some (r, some w.log_type_ct, w') ∧ r ≠ .ok := by
  obtain ⟨r, l, hdest, hr⟩ := register_dest_unkeyed (w := enter w.toLogging f) (i := w.log_type_ct) (j := 0)
    (by rw [enter_new]; exact mt nameable_iff.2 hf)
  have hdests : facility_dests w.reg_initted w.log_type_ct (List.range LOG_NUM_DESTINATIONS) (enter w.toLogging f) =
      some (r, l) := by
    rw [hreg, facility_dests_initted, show List.range LOG_NUM_DESTINATIONS = [0, 1, 2] from rfl, register_dests, hdest]
    cases r <;> first | rfl | exact absurd rfl hr
  refine ⟨r, { w with toLogging := l }, ?_, hr⟩
  rw [Logger.r_log_register, hfind]
  dsimp only
  rw [if_neg hroom, hdests]
  rfl

/-- The name is known, the table is full, the registry is not there yet, or the
keys of the name can be made. -/
def Registrable (w : Logger) (f : Bytes) : Prop :=
  (∃ i < w.log_type_ct, (w.log_types i).facility_name = f) ∨ w.log_type_ct = MAX_LOG_TYPES ∨ w.reg_initted = false ∨ Nameable f

theorem no_trace_iff {w : Logger} (hc : CInv w.reg.cbs) (f : Bytes) : LeavesNoTrace w f ↔ Registrable w f := by
  constructor
  · intro h
    by_contra hno
    obtain ⟨hnew, hroom, hreg, hf⟩ : _ ∧ _ ∧ _ ∧ _ := by simpa only [Registrable, not_or] using hno
    have hfind : find_facility w.toLogging f = none := by
      cases hfind : find_facility w.toLogging f with
      | none => rfl
      | some i =>
        obtain ⟨hi, hname, -⟩ := find_facility_some hfind
        exact absurd ⟨i, hi, hname⟩ hnew
    obtain ⟨r, w', hfails, hr⟩ := register_fails hfind hroom (by simpa using hreg) hf
    have hct := (h _ _ _ hfails hr).1.log_type_ct
    rcases register_cases hc hfails with ⟨hok, -⟩ | ⟨-, ⟨hfull, -⟩ | ⟨-, -, -, l, rfl, hwrote⟩⟩
    · exact hr hok
    · exact hroom hfull
    · have hct' : l.log_type_ct = w.log_type_ct + 1 := hwrote.log_type_ct
      exact absurd (hct'.symm.trans hct) (Nat.succ_ne_self _)
  · intro h r o w' hst hr
    rcases register_cases hc hst with ⟨hok, -⟩ | ⟨hnew, ⟨hfull, -, rfl⟩ | ⟨hroom, -, hok, -⟩⟩
    · exact absurd hok hr
    · refine ⟨⟨rfl, fun _ _ => rfl, fun _ _ => rfl⟩, fun o' w'' hagain => ?_⟩
      rcases register_cases hc hagain with ⟨-, -, i, hi, -, hname, -⟩ | ⟨-, ⟨-, hne, -⟩ | ⟨hroom, -⟩⟩
      · exact hnew i hi hname
      · exact hne rfl
      · exact hroom hfull
    · rcases h with ⟨i, hi, hname⟩ | hfull | hok'
      · exact absurd hname (hnew i hi)
      · exact absurd hfull hroom
      · exact absurd (hok.2 hok') hr

/-! ## Numbers -/

/-- The first entry with a name. -/
structure Entry (w : Logging) (f : Bytes) (i : Nat) : Prop where
  lt : i < w.log_type_ct
  name : (w.log_types i).facility_name = f
  first : ∀ k < i, (w.log_types k).facility_name ≠ f

/-- Entries stay where they are. -/
theorem Entry.register {w w' : Logger} {f g : Bytes} {i : Nat} (h : Entry w.toLogging f i) (hc : CInv w.reg.cbs) {r : Status}
    {o : Option Nat} (hst : w.r_log_register g = some (r, o, w')) : Entry w'.toLogging f i := by
  rcases register_cases hc hst with ⟨-, rfl, -⟩ | ⟨-, ⟨-, -, rfl⟩ | ⟨-, -, -, l, rfl, hwrote⟩⟩
  · exact h
  · exact h
  · have hname : ∀ k < w.log_type_ct, (l.log_types k).facility_name = (w.log_types k).facility_name := fun k hk => by
      rw [hwrote.name, enter_other w.toLogging g hk]
    have hct : l.log_type_ct = w.log_type_ct + 1 := hwrote.log_type_ct
    refine ⟨?_, ?_, fun k hk => ?_⟩
    · show i < l.log_type_ct
      rw [hct]
      exact Nat.lt_succ_of_lt h.lt
    · exact (hname i h.lt).trans h.name
    · show (l.log_types k).facility_name ≠ f
      rw [hname k (Nat.lt_trans hk h.lt)]
      exact h.first k hk

/-- A call that returns 0 returns the first entry with the name. -/
theorem registered_entry {w w' : Logger} (hc : CInv w.reg.cbs) {f : Bytes} {i : Nat} (h : w.registered f = some (i, w')) :
    Entry w'.toLogging f i ∧ ∃ o, w.r_log_register f = some (.ok, o, w') := by
  unfold Logger.registered at h
  split at h
  swap
  · cases h
  rename_i i' w₁ hst
  cases h
  refine ⟨?_, _, hst⟩
  rcases register_cases hc hst with ⟨-, rfl, k, hk, ho, hname, hmin⟩ | ⟨hnew, ⟨-, hne, -⟩ | ⟨-, ho, -, l, rfl, hwrote⟩⟩
  · cases ho
    exact ⟨hk, hname, hmin⟩
  · exact absurd rfl hne
  · cases ho
    refine ⟨?_, ?_, fun k hk => ?_⟩
    · show w.log_type_ct < l.log_type_ct
      rw [hwrote.log_type_ct]
      exact Nat.lt_succ_self _
    · show (l.log_types w.log_type_ct).facility_name = f
      rw [hwrote.name, enter_new]
    · show (l.log_types k).facility_name ≠ f
      rw [hwrote.name, enter_other w.toLogging f hk]
      exact hnew k hk

theorem register_cinv {w w' : Logger} (hc : CInv w.reg.cbs) {f : Bytes} {r : Status} {o : Option Nat}
    (h : w.r_log_register f = some (r, o, w')) : CInv w'.reg.cbs := by
  rcases register_cases hc h with ⟨-, rfl, -⟩ | ⟨-, ⟨-, -, rfl⟩ | ⟨-, -, -, l, rfl, hwrote⟩⟩
  · exact hc
  · exact hc
  · exact hwrote.cbs

theorem numbered {w : Logger} (hc : CInv w.reg.cbs) : Numbered w := by
  intro evs w' hrun
  have hall : CInv w'.reg.cbs ∧ ∀ e ∈ evs, Entry w'.toLogging e.1 e.2 := by
    induction hrun with
    | nil => exact ⟨hc, by simp⟩
    | @snoc evs w₁ f i w₂ _ _ hst ih =>
      obtain ⟨hc₁, hentries⟩ := ih
      obtain ⟨hentry, o, hreg⟩ := registered_entry hc₁ hst
      refine ⟨register_cinv hc₁ hreg, fun e he => ?_⟩
      rcases List.mem_append.1 he with he | he
      · exact (hentries e he).register hc₁ hreg
      · rw [List.mem_singleton.1 he]
        exact hentry
  intro e he e' he'
  have h := hall.2 e he
  have h' := hall.2 e' he'
  constructor
  · intro hname
    rcases Nat.lt_trichotomy e.2 e'.2 with hlt | heq | hgt
    · exact absurd (h.name.trans hname) (h'.first _ hlt)
    · exact heq
    · exact absurd (h'.name.trans hname.symm) (h.first _ hgt)
  · intro hnum
    rw [← h.name, ← h'.name, hnum]

/-- A registration that fails leaves a trace exactly when the registry is there,
the table has room, the name is new and no key can be made for it; the numbers
are right in any case. -/
theorem register_leaves_no_trace_iff {w : Logger} (hc : CInv w.reg.cbs) (f : Bytes) :
    (LeavesNoTrace w f ↔ Registrable w f) ∧ Numbered w :=
  ⟨no_trace_iff hc f, numbered hc⟩

/-! ## A full table -/

/-- Before the registry is there, a new name is entered as it is. -/
theorem register_before {w : Logger} {f : Bytes} (hfind : find_facility w.toLogging f = none)
    (hroom : w.log_type_ct ≠ MAX_LOG_TYPES) (hreg : w.reg_initted = false) :
    ∃ l, w.r_log_register f = some (.ok, some w.log_type_ct, { w with toLogging := l }) ∧
      l.log_type_ct = w.log_type_ct + 1 ∧ ∀ k, (l.log_types k).facility_name = ((enter w.toLogging f).log_types k).facility_name := by
  let l := (((enter w.toLogging f).setLevel w.log_type_ct 0 LOG_LEVEL_UNDEFINED).setLevel w.log_type_ct 1
    LOG_LEVEL_UNDEFINED).setLevel w.log_type_ct 2 LOG_LEVEL_UNDEFINED
  have hdests : facility_dests w.reg_initted w.log_type_ct (List.range LOG_NUM_DESTINATIONS) (enter w.toLogging f) =
      some (.ok, l) := by
    rw [hreg]
    rfl
  refine ⟨l, ?_, rfl, fun k => by simp [l]⟩
  rw [Logger.r_log_register, hfind]
  dsimp only
  rw [if_neg hroom, hdests]
  rfl

/-- A full table stays as it is. -/
theorem register_full {w : Logger} (hfull : w.log_type_ct = MAX_LOG_TYPES) (f : Bytes) :
    ∃ r o, w.r_log_register f = some (r, o, w) := by
  unfold Logger.r_log_register
  cases find_facility w.toLogging f with
  | some i => exact ⟨_, _, rfl⟩
  | none => exact ⟨_, _, if_pos hfull⟩

theorem find_facility_fresh {w : Logging} {f : Bytes} (h : ∀ i < w.log_type_ct, (w.log_types i).facility_name ≠ f) :
    find_facility w f = none :=
  List.find?_eq_none.2 fun i hi => by simpa using h i (List.mem_range.1 hi)

/-- The names of a table are the first numbers. -/
def Counted (w : Logging) (n : Nat) : Prop := w.log_type_ct = n ∧ ∀ i < n, (w.log_types i).facility_name = numeral 10 i

/-- Any number of facilities can be registered before the registry is there. -/
theorem register_counted (env : Environment) {n : Nat} (hn : n ≤ MAX_LOG_TYPES) :
    ∃ evs w, LoggerReaches env evs w ∧ w.reg_initted = false ∧ Counted w.toLogging n := by
  induction n with
  | zero => exact ⟨[], Logger.static, .nil, rfl, rfl, fun i hi => absurd hi (Nat.not_lt_zero i)⟩
  | succ n ih =>
    obtain ⟨evs, w, hreach, hreg, hct, hnames⟩ := ih (Nat.le_of_succ_le hn)
    have hfind : find_facility w.toLogging (numeral 10 n) = none := find_facility_fresh fun i hi heq => by
      rw [hct] at hi
      rw [hnames i hi] at heq
      exact Nat.ne_of_lt hi (numeral_inj (by decide) (by decide) heq)
    obtain ⟨l, hst, hct', hnames'⟩ := register_before hfind (by omega) hreg
    refine ⟨_, { w with toLogging := l }, .snoc hreach trivial (i := .register (numeral 10 n)) (r := .ok) ?_, hreg, ?_, ?_⟩
    · rw [loggerStep, hst]
      rfl
    · exact hct'.trans (by rw [hct])
    · intro i hi
      rw [hnames']
      rcases Nat.lt_succ_iff_lt_or_eq.1 hi with hlt | rfl
      · rw [enter_other _ _ (hct.symm ▸ hlt), hnames i hlt]
      · rw [← hct, enter_new]

/-- The library's own facilities find no room in a full table. -/
theorem log_init_full (log : Bytes) {w : Logger} (hfull : w.log_type_ct = MAX_LOG_TYPES) :
    ∃ w', Logger._r_log_init ⟨none, some log⟩ true w = some w' ∧ w'.reg_initted = w.reg_initted ∧ w'.log_types = w.log_types ∧
      w'.log_type_ct = MAX_LOG_TYPES := by
  by_cases hdone : w.r_log_initted < R_LOG_INITTED2
  · let w₁ : Logger := { w with
      r_log_level := LOGGING_DEFAULT_LEVEL
      log_destinations := fun j => { w.log_destinations j with enabled := if log = dest_name j then 1 else 0 } }
    have hdests : (Logger.r_log_get_default_level ⟨none, some log⟩ w).r_log_get_destinations ⟨none, some log⟩ true =
        some (.ok, w₁) := rfl
    obtain ⟨r, o, hgeneric⟩ := register_full (w := w₁) hfull (str "generic")
    obtain ⟨r', o', hlogging⟩ := register_full (w := w₁) hfull (str "logging")
    refine ⟨{ w₁ with r_log_initted := R_LOG_INITTED2 }, ?_, rfl, rfl, hfull⟩
    rw [Logger._r_log_init, if_neg (by decide), if_pos hdone, hdests]
    simp only [Option.bind_eq_bind, Option.bind_some, hgeneric, hlogging]
  · exact ⟨w, by rw [Logger._r_log_init, if_neg (by decide), if_neg hdone], rfl, rfl, hfull⟩

theorem reg_init_full (log : Bytes) {w : Logger} (hreg : w.reg_initted = false) (hfull : w.log_type_ct = MAX_LOG_TYPES) :
    ∃ w', w.NR_reg_init ⟨none, some log⟩ = some (.ok, w') ∧ w'.reg_initted = true ∧ w'.log_types = w.log_types ∧
      w'.log_type_ct = MAX_LOG_TYPES := by
  obtain ⟨s, hs, -⟩ := init_returns
  obtain ⟨w₁, hinit, hreg₁, htypes, hct⟩ := log_init_full log (w := { w with reg := s, reg_initted := true }) hfull
  obtain ⟨r, o, hregistry⟩ := register_full hct (str "registry")
  refine ⟨w₁, ?_, hreg₁, htypes, hct⟩
  rw [Logger.NR_reg_init, hreg, if_neg Bool.false_ne_true, hs]
  simp only [Option.bind_eq_bind, Option.bind_some, ne_eq, not_true_eq_false, if_false, hinit, hregistry]

/-- A full table refuses a new facility, and keeps what it has. -/
theorem full_table_no_trace : ∃ evs w, LoggerReaches ⟨none, some (str "stderr")⟩ evs w ∧
    w.reg_initted = true ∧ w.r_log_register (str "app") = some (.R_INTERNAL, none, w) ∧ LeavesNoTrace w (str "app") := by
  obtain ⟨evs, w₀, hreach₀, hreg₀, hct₀, hnames⟩ := register_counted ⟨none, some (str "stderr")⟩ (Nat.le_refl MAX_LOG_TYPES)
  obtain ⟨w, hinit, hreg, htypes, hfull⟩ := reg_init_full (str "stderr") hreg₀ hct₀
  have hreach : LoggerReaches ⟨none, some (str "stderr")⟩ (evs ++ [(.reg_init, .ok)]) w := .snoc hreach₀ trivial hinit
  have hfind : find_facility w.toLogging (str "app") = none := find_facility_fresh fun i hi heq => by
    rw [htypes, hnames i (hfull ▸ hi)] at heq
    have ha : (97 : UInt8) ∈ numeral 10 i := by
      rw [heq]
      decide
    obtain ⟨d, hd, hchar⟩ := numeral_mem (by decide) ha
    revert d
    decide
  refine ⟨_, w, hreach, hreg, ?_, (register_leaves_no_trace_iff hreach.tied.cbs _).1.2 (.inr (.inl hfull))⟩
  rw [Logger.r_log_register, hfind]
  exact if_pos hfull

/-- The name of a hidden file: the second registration returns 0. -/
theorem hidden_name_leaves_trace :
    ∃ w, Logger.NR_reg_init ⟨none, none⟩ Logger.static = some (.ok, w) ∧ ¬ LeavesNoTrace w (str ".app") := by
  have hex : (Logger.NR_reg_init ⟨none, none⟩ Logger.static).any (fun x => x.1 = .ok &&
      (x.2.r_log_register (str ".app")).any fun y => y.1 = .R_BAD_ARGS && y.2.2.log_type_ct ≠ x.2.log_type_ct) = true := by
    decide +kernel
  obtain ⟨⟨r, w⟩, hinit, hx⟩ := (Option.any_eq_true _ _).1 hex
  obtain ⟨hr, hy⟩ := Bool.and_eq_true_iff.1 hx
  obtain ⟨⟨r', o, w'⟩, hreg, hz⟩ := (Option.any_eq_true _ _).1 hy
  obtain ⟨hr', hct⟩ := Bool.and_eq_true_iff.1 hz
  obtain rfl : r = .ok := of_decide_eq_true hr
  obtain rfl : r' = .R_BAD_ARGS := of_decide_eq_true hr'
  exact ⟨w, hinit, fun h => of_decide_eq_true hct (h _ _ _ hreg (by decide)).1.log_type_ct⟩

end Nrappkit.Log
