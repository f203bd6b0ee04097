import Nrappkit.Log.Facilities
import Nrappkit.Lib.Runs
/-!
# Registering before and after the registry is there

Facilities can be registered, and lines logged, before `NR_reg_init`: then no
key is read and no callback registered. `r_log_register` enters the name in the
table before it makes the keys, and does not take it out when that fails.
-/
open Lib Nrappkit.Registry

namespace Nrappkit.Log

/-- The variables of the environment. `R_LOG_LEVEL` is what `atoi` makes of it. -/
structure Environment where
  R_LOG_LEVEL : Option Int
  R_LOG_DESTINATION : Option Bytes

def R_LOG_INITTED1 : Nat := 1
def R_LOG_INITTED2 : Nat := 2

/-- All static variables, and whether `reg_vtbl` is set. -/
structure Logger extends Logging where
  reg_initted : Bool
  r_log_initted : Nat
  r_log_level : Int
  r_log_level_environment : Int

/-- The loop of `r_log_register`, for the destinations of a list. -/
def facility_dests (reg_initted : Bool) (i : Nat) : List Nat → Logging → Option (Status × Logging)
  | [], w => some (.ok, w)
  | j :: js, w =>
    match if reg_initted then register_dest w i j else some (.ok, w.setLevel i j LOG_LEVEL_UNDEFINED) with
    | none => none
    | some (.ok, w) => facility_dests reg_initted i js w
    | some (r, w) => some (r, w)

namespace Logger

/-- The result, and what `log_facility` is set to. -/
def r_log_register (w : Logger) (facility_name : Bytes) : Option (Status × Option Nat × Logger) :=
  match find_facility w.toLogging facility_name with
  | some i => some (.ok, some i, w)
  | none =>
    if w.log_type_ct = MAX_LOG_TYPES then some (.R_INTERNAL, none, w)
    else
      let i := w.log_type_ct
      (facility_dests w.reg_initted i (List.range LOG_NUM_DESTINATIONS) (enter w.toLogging facility_name)).map
        fun (r, l) => (r, some i, { w with toLogging := l })

def r_log_get_default_level (env : Environment) (w : Logger) : Logger :=
  match env.R_LOG_LEVEL with
  | some log => { w with r_log_level := log, r_log_level_environment := log }
  | none => { w with r_log_level := LOGGING_DEFAULT_LEVEL }

/-- Without `usereg` the keys are not read. Before `NR_reg_init` they cannot be:
`reg_vtbl` is null. -/
def r_log_get_destinations (env : Environment) (usereg : Bool) (w : Logger) : Option (Status × Logger) :=
  if env.R_LOG_DESTINATION = none ∧ usereg = false then some (.ok, w)
  else if env.R_LOG_DESTINATION = none ∧ w.reg_initted = false then none
  else (Log.r_log_get_destinations env.R_LOG_DESTINATION w.toLogging).map fun (r, l) => (r, { w with toLogging := l })

def _r_log_init (env : Environment) (use_reg : Bool) (w : Logger) : Option Logger :=
  if use_reg = false then
    if w.r_log_initted < R_LOG_INITTED1 then do
      let (_, w) ← r_log_get_destinations env false (r_log_get_default_level env w)
      some { w with r_log_initted := R_LOG_INITTED1 }
    else some w
  else if w.r_log_initted < R_LOG_INITTED2 then do
    let (_, w) ← r_log_get_destinations env true (r_log_get_default_level env w)
    let (_, _, w) ← w.r_log_register (str "generic")
    let (_, _, w) ← w.r_log_register (str "logging")
    some { w with r_log_initted := R_LOG_INITTED2 }
  else some w

/-- For the local registry. A second call does nothing. -/
def NR_reg_init (env : Environment) (w : Logger) : Option (Status × Logger) :=
  if w.reg_initted then some (.ok, w)
  else do
    let (r, reg) ← nr_reg_local_init fun _ => 0
    let w := { w with reg, reg_initted := true }
    -- the failure is logged
    if r ≠ .ok then (_r_log_init env false w).map fun w => (r, w)
    else
      let w ← _r_log_init env true w
      let (_, _, w) ← w.r_log_register (str "registry")
      some (.ok, w)

/-- `dest_vlog` is whether there is a function. -/
def r_log_set_extra_destination (w : Logger) (default_level : Int) (dest_vlog : Bool) : Status × Logger :=
  match (List.range LOG_NUM_DESTINATIONS).find? fun i => str "extra" = dest_name i with
  | none => (.R_INTERNAL, w)
  | some i =>
    let dest := w.log_destinations i
    (.ok, { w with toLogging := w.setDest i <|
      if dest_vlog then { dest with enabled := 1, default_level } else { dest with enabled := 0 } })

/-- The values of the static variables. -/
def static : Logger where
  toLogging := Log.static emptyReg
  reg_initted := false
  r_log_initted := 0
  r_log_level := LOGGING_DEFAULT_LEVEL
  r_log_level_environment := 0

/-- A call that returns 0, with the number of the facility. -/
def registered (w : Logger) (facility_name : Bytes) : Option (Nat × Logger) :=
  match w.r_log_register facility_name with
  | some (.ok, some i, w) => some (i, w)
  | _ => none

end Logger

/-- The keys of a facility can be made. -/
def Nameable (f : Bytes) : Prop := f ≠ [] ∧ f.length ≤ 97 ∧ f.head? ≠ some dot ∧ f.getLast? ≠ some dot

instance (f : Bytes) : Decidable (Nameable f) := inferInstanceAs (Decidable (_ ∧ _ ∧ _ ∧ _))

/-! ## The keys -/

theorem facility_key_length (j : Nat) (f : Bytes) : (facility_key j f).length = (dest_facilities j).length + f.length + 7 := by
  have hlevel : (str ".level").length = 6 := by decide
  simp [facility_key, hlevel]
  omega

/-- The names for which a key can be made. -/
theorem keyed_iff {j : Nat} (hj : j < 3) {f : Bytes} : Keyed j f ↔ f ≠ [] ∧
    (dest_facilities j).length + f.length + 7 < NR_REG_MAX_NR_REGISTRY_LEN ∧ f.head? ≠ some dot ∧ f.getLast? ≠ some dot := by
  have hv : ∀ j < 3, nr_reg_is_valid (dest_facilities j) = .ok := by decide
  unfold Keyed NR_reg_make_registry
  rw [facility_key_length, if_neg (not_not.2 (hv j hj))]
  constructor
  · rintro ⟨⟨key, hkey⟩, hlen⟩
    split at hkey
    · cases hkey
    rename_i hhead
    split at hkey
    · cases hkey
    split at hkey
    · cases hkey
    rename_i hend
    exact ⟨fun hf => hend (.inl hf), hlen, hhead, fun hl => hend (.inr hl)⟩
  · rintro ⟨hne, hlen, hhead, hlast⟩
    rw [if_neg hhead, if_neg (by omega), if_neg (not_or.2 ⟨hne, hlast⟩)]
    exact ⟨⟨_, rfl⟩, hlen⟩

/-- The first destination has the longest name. -/
theorem nameable_iff {f : Bytes} : Nameable f ↔ Keyed 0 f := by
  have hlen : (dest_facilities 0).length = 23 := by decide
  rw [keyed_iff (by decide), hlen, NR_REG_MAX_NR_REGISTRY_LEN, Nameable]
  have hlt : f.length ≤ 97 ↔ 23 + f.length + 7 < 128 := by omega
  rw [hlt]

theorem Nameable.keyed {f : Bytes} (h : Nameable f) {j : Nat} (hj : j < 3) : Keyed j f := by
  have hlen : ∀ j < 3, (dest_facilities j).length ≤ 23 := by decide
  have hle := hlen j hj
  obtain ⟨hne, hlt, hhead, hlast⟩ := h
  refine (keyed_iff hj).2 ⟨hne, ?_, hhead, hlast⟩
  rw [NR_REG_MAX_NR_REGISTRY_LEN]
  omega

/-! ## The loop -/

theorem facility_dests_initted (i : Nat) (js : List Nat) (w : Logging) :
    facility_dests true i js w = register_dests i js w := by
  induction js generalizing w with
  | nil => rfl
  | cons j js ih =>
    rw [facility_dests, register_dests, if_pos rfl]
    cases register_dest w i j with
    | none => rfl
    | some o =>
      obtain ⟨r, w₁⟩ := o
      cases r with
      | ok => exact ih w₁
      | _ => rfl

/-- A destination whose key cannot be made. -/
theorem register_dest_unkeyed {w : Logging} {i j : Nat} (hk : ¬ Keyed j (w.log_types i).facility_name) :
    ∃ r w', register_dest w i j = some (r, w') ∧ r ≠ .ok := by
  unfold register_dest
  dsimp only
  rw [← dest_facilities, if_neg (Nat.not_le.2 (dest_facilities_short j)), Logging.setLevel_name]
  cases hmake : NR_reg_make_registry (dest_facilities j) (w.log_types i).facility_name with
  | error r => exact ⟨r, _, rfl, make_registry_error hmake⟩
  | ok p =>
    have hlong : (facility_key j (w.log_types i).facility_name).length ≥ NR_REG_MAX_NR_REGISTRY_LEN :=
      Nat.not_lt.1 fun hlt => hk ⟨⟨p, hmake⟩, hlt⟩
    dsimp only
    rw [make_facility hmake, if_pos hlong]
    exact ⟨_, _, rfl, by decide⟩

/-! ## What is written -/

/-- What entering levels and callbacks for the entry `i` leaves alone. -/
structure Wrote (w : Logging) (i : Nat) (w' : Logging) : Prop where
  cbs : CInv w'.reg.cbs
  log_type_ct : w'.log_type_ct = w.log_type_ct
  log_destinations : w'.log_destinations = w.log_destinations
  name : ∀ k, (w'.log_types k).facility_name = (w.log_types k).facility_name
  other : ∀ k ≠ i, (w'.log_types k).level = (w.log_types k).level
  level : ∀ l, (w'.log_types i).level l = (w.log_types i).level l ∨ LOG_LEVEL_NONE ≤ (w'.log_types i).level l
  regs : ∀ n a c arg, w'.reg.cbs.regs n a c = some arg → w.reg.cbs.regs n a c = some arg ∨
    ∃ j < 3, n = facility_key j (w.log_types i).facility_name ∧ Role a c ∧ arg = level_ptr i j

namespace Wrote
variable {w w₁ w' : Logging} {i j : Nat}

theorem refl (hc : CInv w.reg.cbs) : Wrote w i w :=
  ⟨hc, rfl, rfl, fun _ => rfl, fun _ _ => rfl, fun _ => .inl rfl, fun _ _ _ _ h => .inl h⟩

theorem trans (h : Wrote w i w₁) (h' : Wrote w₁ i w') : Wrote w i w' where
  cbs := h'.cbs
  log_type_ct := h'.log_type_ct.trans h.log_type_ct
  log_destinations := h'.log_destinations.trans h.log_destinations
  name k := (h'.name k).trans (h.name k)
  other k hk := (h'.other k hk).trans (h.other k hk)
  level l := by
    rcases h'.level l with heq | hle
    · rw [heq]
      exact h.level l
    · exact .inr hle
  regs n a c arg hreg := by
    rcases h'.regs n a c arg hreg with hold | hnew
    · exact h.regs n a c arg hold
    · rw [h.name] at hnew
      exact .inr hnew

theorem setLevel (hc : CInv w.reg.cbs) {v : Int} (hv : LOG_LEVEL_NONE ≤ v) : Wrote w i (w.setLevel i j v) where
  cbs := hc
  log_type_ct := rfl
  log_destinations := rfl
  name k := Logging.setLevel_name ..
  other k hk := by
    funext l
    rw [Logging.setLevel_level, if_neg fun h => hk h.1]
  level l := by
    rw [Logging.setLevel_level]
    split
    · exact .inr hv
    · exact .inl rfl
  regs _ _ _ _ h := .inl h

theorem setKey (hc : CInv w.reg.cbs) (key : Bytes) : Wrote w i (w.setKey i j key) where
  cbs := hc
  log_type_ct := rfl
  log_destinations := rfl
  name k := Logging.setKey_name ..
  other k _ := by
    funext l
    exact Logging.setKey_level ..
  level l := .inl (Logging.setKey_level ..)
  regs _ _ _ _ h := .inl h

theorem setCbs {cbs : Cbs} (hj : j < 3) (hc : CInv cbs)
    (hregs : cbs.regs = setFacility w.reg.cbs.regs i j (w.log_types i).facility_name) : Wrote w i (w.setCbs cbs) where
  cbs := hc
  log_type_ct := rfl
  log_destinations := rfl
  name _ := rfl
  other _ _ := rfl
  level _ := .inl rfl
  regs n a c arg h := by
    replace h : cbs.regs n a c = some arg := h
    rw [hregs, setFacility_apply] at h
    rcases h with hnew | ⟨-, hold⟩
    · exact .inr ⟨j, hj, hnew⟩
    · exact .inl hold

end Wrote

theorem wordLevel_ge (level : Bytes) : LOG_LEVEL_NONE ≤ wordLevel level := by
  unfold wordLevel
  split
  · exact Int.le_refl _
  · split
    · exact Int.le_trans (by decide) (Int.natCast_nonneg _)
    · decide

theorem get_reg_level_ge {s : Reg} {key : Bytes} {level : Int} (h : r_log_get_reg_level s key = some (.ok level)) :
    LOG_LEVEL_NONE ≤ level := by
  unfold r_log_get_reg_level at h
  split at h
  · cases h
  · cases h
  · obtain ⟨word, -, hword⟩ := Option.map_eq_some_iff.1 h
    rw [← Except.ok.inj hword]
    exact wordLevel_ge word

/-- One destination, whatever the registry holds. -/
theorem register_dest_wrote {w w' : Logging} (hc : CInv w.reg.cbs) {i j : Nat} (hj : j < 3) {r : Status}
    (h : register_dest w i j = some (r, w')) :
    Wrote w i w' ∧ (r = .ok ↔ Keyed j (w.log_types i).facility_name) := by
  have hlevel : Wrote w i (w.setLevel i j LOG_LEVEL_UNDEFINED) := .setLevel hc (by decide)
  have hkey := hlevel.trans (.setKey (j := j) hlevel.cbs
    (snprintf NR_REG_MAX_NR_REGISTRY_LEN (facility_key j (w.log_types i).facility_name)))
  rcases register_dest_cases hc h with ⟨hk, hr, rfl | rfl⟩ | ⟨hk, rfl, level, cbs, hget, hc', hregs, rfl⟩
  · exact ⟨hlevel, iff_of_false hr hk⟩
  · exact ⟨hkey, iff_of_false hr hk⟩
  · refine ⟨?_, iff_of_true rfl hk⟩
    cases level with
    | ok level =>
      have hread := hkey.trans (.setLevel (j := j) hkey.cbs (get_reg_level_ge hget))
      rw [← hread.name i] at hregs
      exact hread.trans (.setCbs hj hc' hregs)
    | error e =>
      rw [← hkey.name i] at hregs
      exact hkey.trans (.setCbs hj hc' hregs)

/-- The loop: with the registry it succeeds when all keys can be made. -/
theorem facility_dests_wrote {reg_initted : Bool} {i : Nat} {js : List Nat} (hjs : ∀ j ∈ js, j < 3) {w w' : Logging}
    (hc : CInv w.reg.cbs) {r : Status} (h : facility_dests reg_initted i js w = some (r, w')) :
    Wrote w i w' ∧ (r = .ok ↔ reg_initted = false ∨ ∀ j ∈ js, Keyed j (w.log_types i).facility_name) := by
  induction js generalizing w with
  | nil =>
    cases h
    exact ⟨.refl hc, by simp⟩
  | cons j js ih =>
    have hjs' : ∀ k ∈ js, k < 3 := fun k hk => hjs k (List.mem_cons_of_mem j hk)
    cases reg_initted with
    | false =>
      have hone : Wrote w i (w.setLevel i j LOG_LEVEL_UNDEFINED) := .setLevel hc (by decide)
      obtain ⟨hrest, hr⟩ := ih hjs' hone.cbs h
      exact ⟨hone.trans hrest, by simpa using hr⟩
    | true =>
      rw [facility_dests_initted, register_dests] at h
      cases hdest : register_dest w i j with
      | none =>
        rw [hdest] at h
        cases h
      | some o =>
        obtain ⟨r₁, w₁⟩ := o
        obtain ⟨hone, hr₁⟩ := register_dest_wrote hc (hjs j List.mem_cons_self) hdest
        by_cases hok : r₁ = .ok
        · subst hok
          rw [hdest] at h
          dsimp only at h
          rw [← facility_dests_initted] at h
          obtain ⟨hrest, hr⟩ := ih hjs' hone.cbs h
          refine ⟨hone.trans hrest, ?_⟩
          rw [hr, hone.name, List.forall_mem_cons, and_iff_right (hr₁.1 rfl)]
        · have hstop : (some (r₁, w₁) : Option (Status × Logging)) = some (r, w') := by
            rw [← h, hdest]
            cases r₁ <;> first | rfl | exact absurd rfl hok
          cases hstop
          refine ⟨hone, iff_of_false hok ?_⟩
          rintro (hno | hall)
          · cases hno
          · exact hok (hr₁.2 (hall j List.mem_cons_self))

/-! ## Registering -/

theorem find_facility_some {w : Logging} {f : Bytes} {i : Nat} (h : find_facility w f = some i) :
    i < w.log_type_ct ∧ (w.log_types i).facility_name = f ∧ ∀ k < i, (w.log_types k).facility_name ≠ f := by
  obtain ⟨hf, hi, hmin⟩ := List.find?_range_eq_some.1 h
  exact ⟨List.mem_range.1 hi, of_decide_eq_true hf, fun k hk => by simpa using hmin k hk⟩

/-- What `r_log_register` does: the name is known, the table is full, or the name
is entered. -/
theorem register_cases {w w' : Logger} (hc : CInv w.reg.cbs) {f : Bytes} {r : Status} {o : Option Nat}
    (h : w.r_log_register f = some (r, o, w')) :
    (r = .ok ∧ w' = w ∧ ∃ i < w.log_type_ct, o = some i ∧ (w.log_types i).facility_name = f ∧
      ∀ k < i, (w.log_types k).facility_name ≠ f) ∨
    ((∀ i < w.log_type_ct, (w.log_types i).facility_name ≠ f) ∧
      (w.log_type_ct = MAX_LOG_TYPES ∧ r ≠ .ok ∧ w' = w ∨
        w.log_type_ct ≠ MAX_LOG_TYPES ∧ o = some w.log_type_ct ∧ (r = .ok ↔ w.reg_initted = false ∨ Nameable f) ∧
          ∃ l, w' = { w with toLogging := l } ∧ Wrote (enter w.toLogging f) w.log_type_ct l)) := by
  unfold Logger.r_log_register at h
  cases hfind : find_facility w.toLogging f with
  | some i =>
    rw [hfind] at h
    cases h
    obtain ⟨hi, hname, hmin⟩ := find_facility_some hfind
    exact .inl ⟨rfl, rfl, i, hi, rfl, hname, hmin⟩
  | none =>
    rw [hfind] at h
    dsimp only at h
    refine .inr ⟨find_facility_none hfind, ?_⟩
    split at h
    · rename_i hfull
      cases h
      exact .inl ⟨hfull, by decide, rfl⟩
    · rename_i hroom
      obtain ⟨⟨r₁, l⟩, hdests, heq⟩ := Option.map_eq_some_iff.1 h
      cases heq
      obtain ⟨hwrote, hr⟩ := facility_dests_wrote (w := enter w.toLogging f) (fun j hj => List.mem_range.1 hj) hc hdests
      refine .inr ⟨hroom, rfl, ?_, l, rfl, hwrote⟩
      rw [hr, enter_new]
      refine or_congr_right ⟨fun hall => nameable_iff.2 (hall 0 (by decide)), fun hn j hj => ?_⟩
      exact hn.keyed (List.mem_range.1 hj)

end Nrappkit.Log
