import Nrappkit.Log.Destinations
/-!
# Registering a facility

Each destination has a key for each facility. `r_log_register` reads the three
levels and registers two callbacks for each key; the registrations of the
module are then those of `Wire`.
-/
open Lib Nrappkit.Registry

namespace Nrappkit.Log

namespace Logging
variable (w : Logging) (i j : Nat) (level : Int) (key : Bytes)

@[simp] theorem setLevel_reg : (w.setLevel i j level).reg = w.reg := rfl
@[simp] theorem setKey_reg : (w.setKey i j key).reg = w.reg := rfl

@[simp] theorem setLevel_name (k : Nat) :
    ((w.setLevel i j level).log_types k).facility_name = (w.log_types k).facility_name := by
  unfold setLevel setType
  by_cases hk : k = i
  · simp [hk]
  · simp [Function.update_of_ne hk]

@[simp] theorem setKey_name (k : Nat) :
    ((w.setKey i j key).log_types k).facility_name = (w.log_types k).facility_name := by
  unfold setKey setType
  by_cases hk : k = i
  · simp [hk]
  · simp [Function.update_of_ne hk]

theorem setLevel_level (k l : Nat) : ((w.setLevel i j level).log_types k).level l =
    if k = i ∧ l = j then level else (w.log_types k).level l := by
  unfold setLevel setType
  by_cases hk : k = i
  · by_cases hl : l = j <;> simp [hk, hl]
  · simp [hk]

@[simp] theorem setKey_level (k l : Nat) :
    ((w.setKey i j key).log_types k).level l = (w.log_types k).level l := by
  unfold setKey setType
  by_cases hk : k = i
  · simp [hk]
  · simp [Function.update_of_ne hk]

end Logging

/-! ## The keys of a facility -/

def dest_facilities (j : Nat) : Bytes := str "logging." ++ dest_name j ++ str ".facility"

theorem dest_facilities_short (j : Nat) : (dest_facilities j).length < NR_REG_MAX_NR_REGISTRY_LEN := by
  rcases j with _ | _ | j
  · decide
  · decide
  · exact (by decide : (dest_facilities 2).length < NR_REG_MAX_NR_REGISTRY_LEN)

/-- The key of a facility under a destination. -/
def facility_key (j : Nat) (facility_name : Bytes) : Bytes :=
  dest_facilities j ++ [dot] ++ facility_name.map childByte ++ str ".level"

/-- The facility can be registered under a destination. -/
def Keyed (j : Nat) (facility_name : Bytes) : Prop :=
  (∃ key, NR_reg_make_registry (dest_facilities j) facility_name = .ok key) ∧
    (facility_key j facility_name).length < NR_REG_MAX_NR_REGISTRY_LEN

theorem make_facility {j : Nat} {f p : Bytes} (h : NR_reg_make_registry (dest_facilities j) f = .ok p) :
    p ++ str ".level" = facility_key j f := by
  obtain ⟨-, -, -, rfl⟩ := make_registry_inv h
  have hne : dest_facilities j ≠ [] := by simp [dest_facilities, str]
  rw [if_neg hne, facility_key]

/-- Facilities with one key are registered under one destination, and their
names have the same bytes in a key. -/
theorem facility_key_inj {j k : Nat} (hj : j < 3) (hk : k < 3) {f g : Bytes} (h : facility_key j f = facility_key k g) :
    j = k ∧ f.map childByte = g.map childByte := by
  have hpre : ∀ j < 3, ∀ k < 3, (dest_facilities j).take 10 = (dest_facilities k).take 10 → j = k := by decide
  have hlen : ∀ j < 3, 10 ≤ (dest_facilities j).length := by decide
  have htake : ∀ j < 3, ∀ f, (facility_key j f).take 10 = (dest_facilities j).take 10 := by
    intro j hj f
    rw [facility_key, List.append_assoc, List.append_assoc, List.take_append_of_le_length (hlen j hj)]
  have hjk := hpre j hj k hk (by rw [← htake j hj f, ← htake k hk g, h])
  subst hjk
  refine ⟨rfl, ?_⟩
  rw [facility_key, facility_key, List.append_left_inj, List.append_right_inj] at h
  exact h

theorem facility_key_ne_nil (j : Nat) (f : Bytes) : facility_key j f ≠ [] := by
  simp [facility_key]

theorem facility_key_valid {j : Nat} {f : Bytes} (h : Keyed j f) : nr_reg_is_valid (facility_key j f) = .ok := by
  obtain ⟨⟨p, hp⟩, hlen⟩ := h
  have hkey := make_facility hp
  obtain ⟨hne, hv⟩ := make_registry_valid hp
  obtain ⟨-, hhead, -, hlegal⟩ := is_valid_iff.1 hv
  rw [← hkey] at hlen ⊢
  refine is_valid_iff.2 ⟨hlen, ?_, ?_, fun c hc => ?_⟩
  · rw [List.head?_append_of_ne_nil _ hne]
    exact hhead
  · rw [List.getLast?_append_of_ne_nil _ (by decide)]
    decide
  · rcases List.mem_append.1 hc with hc | hc
    · exact hlegal c hc
    · have hlevel : (str ".level").all legalByte = true := by decide
      exact List.all_eq_true.1 hlevel c hc

/-! ## One destination -/

/-- The registrations of a facility under a destination. -/
def setFacility (m : Bytes → UInt8 → UInt64 → Option UInt64) (i j : Nat) (f : Bytes) :
    Bytes → UInt8 → UInt64 → Option UInt64 :=
  setReg (setReg m (facility_key j f) (bits (NR_REG_CB_ACTION_ADD ||| NR_REG_CB_ACTION_CHANGE)) facility_change_ptr
    (some (level_ptr i j))) (facility_key j f) (bits NR_REG_CB_ACTION_DELETE) facility_delete_ptr (some (level_ptr i j))

/-- What registering a facility under destinations does. -/
structure Entered (w : Logging) (i : Nat) (js : List Nat) (w' : Logging) : Prop where
  reg : w'.reg = { w.reg with cbs := w'.reg.cbs }
  cbs : CInv w'.reg.cbs
  log_type_ct : w'.log_type_ct = w.log_type_ct
  log_destinations : w'.log_destinations = w.log_destinations
  name : ∀ k, (w'.log_types k).facility_name = (w.log_types k).facility_name
  level : ∀ k l, (w'.log_types k).level l =
    if k = i ∧ l ∈ js then levelAt w.reg (facility_key l (w.log_types i).facility_name) else (w.log_types k).level l
  regs : w'.reg.cbs.regs = js.foldl (fun m j => setFacility m i j (w.log_types i).facility_name) w.reg.cbs.regs

/-- The level that is kept when a key is read. -/
theorem read_level {s : Reg} (hs : Sound s) {key : Bytes} (hv : nr_reg_is_valid key = .ok) {level : Except Status Int}
    (h : r_log_get_reg_level s key = some level) :
    levelAt s key = match level with
      | .ok level => level
      | .error _ => LOG_LEVEL_UNDEFINED := by
  rcases get_reg_level_spec hs hv h with ⟨hm, rfl⟩ | ⟨v, hm, -, rfl⟩ | ⟨v, r, hm, hfit, rfl, -⟩
  · rw [levelAt, hm]
  · rw [levelAt, hm]
  · rw [levelAt, hm]
    exact valueLevel_unfit hfit

/-- The two registrations for a key. -/
theorem register_key {w : Logging} (hc : CInv w.reg.cbs) (i : Nat) {j : Nat} {f : Bytes}
    (hv : nr_reg_is_valid (facility_key j f) = .ok) :
    ∃ cbs cbs', register_callback w (facility_key j f) (NR_REG_CB_ACTION_ADD ||| NR_REG_CB_ACTION_CHANGE)
        facility_change_ptr (level_ptr i j) = some (.ok, w.setCbs cbs) ∧
      register_callback (w.setCbs cbs) (facility_key j f) NR_REG_CB_ACTION_DELETE facility_delete_ptr (level_ptr i j) =
        some (.ok, w.setCbs cbs') ∧ CInv cbs' ∧ cbs'.regs = setFacility w.reg.cbs.regs i j f := by
  obtain ⟨cbs, hadd, hc₁, hregs⟩ := register_callback_ok hc (level_ptr i j) (show facility_change_ptr ≠ 0 by decide) hv
    (show leftover (NR_REG_CB_ACTION_ADD ||| NR_REG_CB_ACTION_CHANGE) = 0 by decide)
  replace hc₁ : CInv (w.setCbs cbs).reg.cbs := hc₁
  obtain ⟨cbs', hdel, hc₂, hregs'⟩ := register_callback_ok hc₁ (level_ptr i j)
    (show facility_delete_ptr ≠ 0 by decide) hv
    (show leftover NR_REG_CB_ACTION_DELETE = 0 by decide)
  refine ⟨cbs, cbs', hadd, hdel, hc₂, ?_⟩
  rw [setFacility, ← hregs]
  exact hregs'

/-- The level is stored, and then the callbacks. -/
theorem entered {w w₁ : Logging} {i j : Nat} {cbs : Cbs} (hreg : w₁.reg = w.reg) (hct : w₁.log_type_ct = w.log_type_ct)
    (hdest : w₁.log_destinations = w.log_destinations)
    (hname : ∀ k, (w₁.log_types k).facility_name = (w.log_types k).facility_name)
    (hlevel : ∀ k l, (w₁.log_types k).level l = if k = i ∧ l = j then
      levelAt w.reg (facility_key j (w.log_types i).facility_name) else (w.log_types k).level l)
    (hc : CInv cbs) (hregs : cbs.regs = setFacility w.reg.cbs.regs i j (w.log_types i).facility_name) :
    Entered w i [j] (w₁.setCbs cbs) where
  reg := congrArg (fun reg => { reg with cbs }) hreg
  cbs := hc
  log_type_ct := hct
  log_destinations := hdest
  name := hname
  level k l := by
    by_cases hkl : k = i ∧ l = j
    · rw [if_pos ⟨hkl.1, List.mem_singleton.2 hkl.2⟩, hkl.2]
      exact (hlevel k j).trans (if_pos ⟨hkl.1, rfl⟩)
    · rw [if_neg fun h => hkl ⟨h.1, List.mem_singleton.1 h.2⟩]
      exact (hlevel k l).trans (if_neg hkl)
  regs := hregs

/-- What is done for a destination: the key cannot be made, or its level is read
and the callbacks are registered. -/
theorem register_dest_cases {w w' : Logging} (hc : CInv w.reg.cbs) {i j : Nat} {r : Status}
    (h : register_dest w i j = some (r, w')) :
    let key := facility_key j (w.log_types i).facility_name
    let w₁ := (w.setLevel i j LOG_LEVEL_UNDEFINED).setKey i j (snprintf NR_REG_MAX_NR_REGISTRY_LEN key)
    (¬ Keyed j (w.log_types i).facility_name ∧ r ≠ .ok ∧ (w' = w.setLevel i j LOG_LEVEL_UNDEFINED ∨ w' = w₁)) ∨
      (Keyed j (w.log_types i).facility_name ∧ r = .ok ∧ ∃ level cbs, r_log_get_reg_level w.reg key = some level ∧ CInv cbs ∧
        cbs.regs = setFacility w.reg.cbs.regs i j (w.log_types i).facility_name ∧
        w' = (level.toOption.elim w₁ fun level => w₁.setLevel i j level).setCbs cbs) := by
  intro key w₁
  unfold register_dest at h
  dsimp only at h
  rw [← dest_facilities, if_neg (Nat.not_le.2 (dest_facilities_short j)), Logging.setLevel_name] at h
  cases hmake : NR_reg_make_registry (dest_facilities j) (w.log_types i).facility_name with
  | error e =>
    rw [hmake] at h
    cases h
    refine .inl ⟨?_, make_registry_error hmake, .inl rfl⟩
    rintro ⟨⟨p, hp⟩, -⟩
    rw [hmake] at hp
    cases hp
  | ok p =>
    rw [hmake] at h
    dsimp only at h
    rw [make_facility hmake] at h
    split at h
    · rename_i hlong
      cases h
      exact .inl ⟨fun hk => absurd hk.2 (Nat.not_lt.2 hlong), by decide, .inr rfl⟩
    · rename_i hshort
      have hk : Keyed j (w.log_types i).facility_name := ⟨⟨p, hmake⟩, Nat.not_le.1 hshort⟩
      rw [Logging.setKey_reg, Logging.setLevel_reg] at h
      cases hget : r_log_get_reg_level w.reg key with
      | none =>
        rw [hget] at h
        cases h
      | some level =>
        rw [hget] at h
        have hreg : (level.toOption.elim w₁ fun level => w₁.setLevel i j level).reg = w.reg := by cases level <;> rfl
        obtain ⟨cbs, cbs', hadd, hdel, hc', hregs⟩ := register_key (w := level.toOption.elim w₁ fun level =>
          w₁.setLevel i j level) (by rwa [hreg]) i (facility_key_valid hk)
        rw [hreg] at hregs
        refine .inr ⟨hk, ?_⟩
        cases level with
        | ok level =>
          dsimp only [Except.toOption, Option.elim] at h hadd hdel
          rw [hadd] at h
          dsimp only at h
          rw [hdel] at h
          cases h
          exact ⟨rfl, _, cbs', rfl, hc', hregs, rfl⟩
        | error e =>
          dsimp only [Except.toOption, Option.elim] at h hadd hdel
          rw [hadd] at h
          dsimp only at h
          rw [hdel] at h
          cases h
          exact ⟨rfl, _, cbs', rfl, hc', hregs, rfl⟩

theorem register_dest_spec {w w' : Logging} (hs : Sound w.reg) (hc : CInv w.reg.cbs) {i j : Nat} {r : Status}
    (h : register_dest w i j = some (r, w')) :
    if r = .ok then Entered w i [j] w' else ¬ Keyed j (w.log_types i).facility_name := by
  rcases register_dest_cases hc h with ⟨hk, hr, -⟩ | ⟨hk, rfl, level, cbs, hget, hc', hregs, rfl⟩
  · rw [if_neg hr]
    exact hk
  · rw [if_pos rfl]
    have hlevel := read_level hs (facility_key_valid hk) hget
    cases level with
    | ok level =>
      refine entered rfl rfl rfl (fun k => by simp [Except.toOption]) (fun k l => ?_) hc' hregs
      dsimp only at hlevel
      rw [Except.toOption, Option.elim, Logging.setLevel_level, Logging.setKey_level, Logging.setLevel_level, hlevel]
      split <;> rfl
    | error e =>
      refine entered rfl rfl rfl (fun k => by simp [Except.toOption]) (fun k l => ?_) hc' hregs
      dsimp only at hlevel
      rw [Except.toOption, Option.elim, Logging.setKey_level, Logging.setLevel_level, hlevel]

theorem Entered.sound {w w' : Logging} {i : Nat} {js : List Nat} (h : Entered w i js w') (hs : Sound w.reg) :
    Sound w'.reg := by
  rw [h.reg]
  exact sound_cbs hs _

theorem Entered.map {w w' : Logging} {i : Nat} {js : List Nat} (h : Entered w i js w') : w'.reg.map = w.reg.map := by
  rw [h.reg]
  rfl

theorem levelAt_map {s s' : Reg} (h : s'.map = s.map) (key : Bytes) : levelAt s' key = levelAt s key := by
  unfold levelAt
  rw [h]

theorem Entered.cons {w w₁ w' : Logging} {i j : Nat} {js : List Nat} (h : Entered w i [j] w₁)
    (h' : Entered w₁ i js w') : Entered w i (j :: js) w' where
  reg := by rw [h'.reg, h.reg]
  cbs := h'.cbs
  log_type_ct := h'.log_type_ct.trans h.log_type_ct
  log_destinations := h'.log_destinations.trans h.log_destinations
  name k := (h'.name k).trans (h.name k)
  level k l := by
    rw [h'.level, h.level, levelAt_map h.map, h.name]
    by_cases hk : k = i
    · by_cases hj : l = j
      · simp [hk, hj]
      · simp [hk, hj]
    · simp [hk]
  regs := by rw [h'.regs, h.regs, h.name]; rfl

/-- The loop over the destinations. -/
theorem register_dests_spec {js : List Nat} {w w' : Logging} (hs : Sound w.reg) (hc : CInv w.reg.cbs) {i : Nat}
    {r : Status} (h : register_dests i js w = some (r, w')) :
    if r = .ok then Entered w i js w' else ∃ j ∈ js, ¬ Keyed j (w.log_types i).facility_name := by
  induction js generalizing w with
  | nil =>
    cases h
    rw [if_pos rfl]
    exact ⟨rfl, hc, rfl, rfl, fun _ => rfl, fun k l => by simp, rfl⟩
  | cons j js ih =>
    rw [register_dests] at h
    cases hdest : register_dest w i j with
    | none =>
      rw [hdest] at h
      cases h
    | some o =>
      obtain ⟨r₁, w₁⟩ := o
      have hone := register_dest_spec hs hc hdest
      by_cases hr : r₁ = .ok
      · subst hr
        rw [if_pos rfl] at hone
        rw [hdest] at h
        have hrest := ih (hone.sound hs) hone.cbs h
        rw [hone.name] at hrest
        by_cases hr' : r = .ok
        · rw [if_pos hr'] at hrest ⊢
          exact hone.cons hrest
        · rw [if_neg hr'] at hrest ⊢
          obtain ⟨k, hk, hkeyed⟩ := hrest
          exact ⟨k, by simp [hk], hkeyed⟩
      · have hstop : (some (r₁, w₁) : Option (Status × Logging)) = some (r, w') := by
          rw [← h, hdest]
          cases r₁ <;> first | rfl | exact absurd rfl hr
        cases hstop
        rw [if_neg hr] at hone ⊢
        exact ⟨j, by simp, hone⟩

/-! ## The facility -/

/-- What registering a new facility does. -/
structure Added (w : Logging) (f : Bytes) (w' : Logging) : Prop where
  room : w.log_type_ct < MAX_LOG_TYPES
  fresh : ∀ i < w.log_type_ct, (w.log_types i).facility_name ≠ f
  reg : w'.reg = { w.reg with cbs := w'.reg.cbs }
  cbs : CInv w'.reg.cbs
  log_type_ct : w'.log_type_ct = w.log_type_ct + 1
  log_destinations : w'.log_destinations = w.log_destinations
  name : ∀ k < w.log_type_ct, (w'.log_types k).facility_name = (w.log_types k).facility_name
  name_new : (w'.log_types w.log_type_ct).facility_name = f
  level : ∀ k < w.log_type_ct, (w'.log_types k).level = (w.log_types k).level
  level_new : ∀ j < 3, (w'.log_types w.log_type_ct).level j = levelAt w.reg (facility_key j f)
  regs : w'.reg.cbs.regs = (List.range 3).foldl (fun m j => setFacility m w.log_type_ct j f) w.reg.cbs.regs

theorem find_facility_none {w : Logging} {f : Bytes} (h : find_facility w f = none) :
    ∀ i < w.log_type_ct, (w.log_types i).facility_name ≠ f := by
  intro i hi
  have hnone := List.find?_eq_none.1 h i (List.mem_range.2 hi)
  simpa using hnone

/-- The table with a new name, before its keys are read. -/
def enter (w : Logging) (f : Bytes) : Logging :=
  { w.setType w.log_type_ct { w.log_types w.log_type_ct with facility_name := f } with log_type_ct := w.log_type_ct + 1 }

theorem enter_new (w : Logging) (f : Bytes) :
    (enter w f).log_types w.log_type_ct = { w.log_types w.log_type_ct with facility_name := f } :=
  Function.update_self ..

theorem enter_other (w : Logging) (f : Bytes) {k : Nat} (hk : k < w.log_type_ct) :
    (enter w f).log_types k = w.log_types k := Function.update_of_ne (Nat.ne_of_lt hk) ..

theorem Entered.added {w w' : Logging} {f : Bytes} (hroom : w.log_type_ct < MAX_LOG_TYPES)
    (hfind : find_facility w f = none) (h : Entered (enter w f) w.log_type_ct (List.range LOG_NUM_DESTINATIONS) w') :
    Added w f w' where
  room := hroom
  fresh := find_facility_none hfind
  reg := h.reg
  cbs := h.cbs
  log_type_ct := h.log_type_ct
  log_destinations := h.log_destinations
  name k hk := by rw [h.name, enter_other w f hk]
  name_new := by rw [h.name, enter_new]
  level k hk := by
    funext l
    rw [h.level, if_neg fun h => Nat.ne_of_lt hk h.1, enter_other w f hk]
  level_new j hj := by
    rw [h.level, if_pos ⟨rfl, List.mem_range.2 hj⟩, enter_new]
    rfl
  regs := by
    rw [h.regs, enter_new]
    rfl

/-- A name that is known changes nothing. -/
theorem r_log_register_spec {w w' : Logging} (hs : Sound w.reg) (hc : CInv w.reg.cbs) (hct : w.log_type_ct ≤ MAX_LOG_TYPES)
    {f : Bytes} {r : Status} {o : Option Nat} (h : r_log_register w f = some (r, o, w')) :
    if r = .ok then w' = w ∨ Added w f w'
    else w.log_type_ct = MAX_LOG_TYPES ∨ ∃ j < 3, ¬ Keyed j f := by
  unfold r_log_register at h
  split at h
  · cases h
    rw [if_pos rfl]
    exact .inl rfl
  · rename_i hfind
    split at h
    · rename_i hfull
      cases h
      rw [if_neg (by decide)]
      exact .inl hfull
    · rename_i hfull
      obtain ⟨⟨r₁, w₁⟩, hdests, heq⟩ := Option.map_eq_some_iff.1 h
      cases heq
      rw [← enter] at hdests
      have hspec := register_dests_spec (w := enter w f) hs hc hdests
      by_cases hr : r = .ok
      · rw [if_pos hr] at hspec ⊢
        exact .inr (hspec.added (Nat.lt_of_le_of_ne hct hfull) hfind)
      · rw [if_neg hr, enter_new] at hspec
        rw [if_neg hr]
        obtain ⟨j, hj, hkeyed⟩ := hspec
        exact .inr ⟨j, List.mem_range.1 hj, hkeyed⟩

/-! ## What is registered -/

/-- The callbacks of a facility and their actions. -/
def Role (a : UInt8) (c : UInt64) : Prop :=
  c = facility_change_ptr ∧ a ∈ bits (NR_REG_CB_ACTION_ADD ||| NR_REG_CB_ACTION_CHANGE) ∨
    c = facility_delete_ptr ∧ a ∈ bits NR_REG_CB_ACTION_DELETE

/-- A registration for a facility. -/
def FacilityWire (w : Logging) (n : Bytes) (a : UInt8) (c arg : UInt64) : Prop :=
  ∃ i < w.log_type_ct, ∃ j < 3, n = facility_key j (w.log_types i).facility_name ∧ Role a c ∧ arg = level_ptr i j

/-- A registration for the destinations. -/
def DestWire (env : Option Bytes) (n : Bytes) (a : UInt8) (c arg : UInt64) : Prop :=
  env = none ∧ ∃ x < 6, n = dest_key x ∧ a ∈ bits NR_REG_CB_ACTIONS ∧ c = dest_ptr x ∧ arg = 0

/-- The registrations are those of the facilities and the destinations, and no
two facilities have the same key. -/
structure Wired (env : Option Bytes) (w : Logging) : Prop where
  sound : Sound w.reg
  cbs : CInv w.reg.cbs
  room : w.log_type_ct ≤ MAX_LOG_TYPES
  apart : ∀ i < w.log_type_ct, ∀ k < w.log_type_ct,
    (w.log_types i).facility_name.map childByte = (w.log_types k).facility_name.map childByte → i = k
  regs : ∀ n a c arg, w.reg.cbs.regs n a c = some arg ↔ FacilityWire w n a c arg ∨ DestWire env n a c arg

theorem setFacility_apply (m : Bytes → UInt8 → UInt64 → Option UInt64) (i j : Nat) (f n : Bytes) (a : UInt8) (c arg : UInt64) :
    setFacility m i j f n a c = some arg ↔
      (n = facility_key j f ∧ Role a c ∧ arg = level_ptr i j) ∨
        (¬ (n = facility_key j f ∧ Role a c) ∧ m n a c = some arg) := by
  have hne : facility_change_ptr ≠ facility_delete_ptr := by decide
  unfold setFacility setReg Role
  by_cases hn : n = facility_key j f
  · by_cases hadd : c = facility_change_ptr ∧ a ∈ bits (NR_REG_CB_ACTION_ADD ||| NR_REG_CB_ACTION_CHANGE)
    · have hdel : ¬ c = facility_delete_ptr := fun h => hne (hadd.1.symm.trans h)
      simp [hn, hadd.1, hadd.2, hne, eq_comm]
    · by_cases hdel : c = facility_delete_ptr ∧ a ∈ bits NR_REG_CB_ACTION_DELETE
      · simp [hn, hdel.1, hdel.2, eq_comm]
      · have h₁ : ¬ (a ∈ bits NR_REG_CB_ACTION_DELETE ∧ c = facility_delete_ptr) := fun h => hdel ⟨h.2, h.1⟩
        have h₂ : ¬ (a ∈ bits (NR_REG_CB_ACTION_ADD ||| NR_REG_CB_ACTION_CHANGE) ∧ c = facility_change_ptr) :=
          fun h => hadd ⟨h.2, h.1⟩
        simp [hn, h₁, h₂, hadd, hdel]
  · simp [hn]

/-- The registrations of a facility under all destinations. -/
theorem setFacilities_apply (m : Bytes → UInt8 → UInt64 → Option UInt64) (i : Nat) (f n : Bytes) (a : UInt8) (c arg : UInt64) :
    (List.range 3).foldl (fun m j => setFacility m i j f) m n a c = some arg ↔
      (∃ j < 3, n = facility_key j f ∧ Role a c ∧ arg = level_ptr i j) ∨
        (¬ ((∃ j < 3, n = facility_key j f) ∧ Role a c) ∧ m n a c = some arg) := by
  change setFacility (setFacility (setFacility m i 0 f) i 1 f) i 2 f n a c = some arg ↔ _
  rw [setFacility_apply, setFacility_apply, setFacility_apply]
  have hkeys : ∀ j < 3, ∀ k < 3, n = facility_key j f → n = facility_key k f → j = k := fun j hj k hk hnj hnk =>
    (facility_key_inj hj hk (hnj.symm.trans hnk)).1
  constructor
  · rintro (⟨hn, hr, ha⟩ | ⟨h₂, ⟨hn, hr, ha⟩ | ⟨h₁, ⟨hn, hr, ha⟩ | ⟨h₀, hm⟩⟩⟩)
    · exact .inl ⟨2, by decide, hn, hr, ha⟩
    · exact .inl ⟨1, by decide, hn, hr, ha⟩
    · exact .inl ⟨0, by decide, hn, hr, ha⟩
    · refine .inr ⟨?_, hm⟩
      rintro ⟨⟨j, hj, hn⟩, hr⟩
      rcases j with _ | _ | _ | j
      · exact h₀ ⟨hn, hr⟩
      · exact h₁ ⟨hn, hr⟩
      · exact h₂ ⟨hn, hr⟩
      · omega
  · have hnot : ∀ j < 3, ∀ k < 3, n = facility_key j f → j ≠ k → ¬ (n = facility_key k f ∧ Role a c) :=
      fun j hj k hk hnj hne hnk => hne (hkeys j hj k hk hnj hnk.1)
    rintro (⟨j, hj, hn, hr, ha⟩ | ⟨hno, hm⟩)
    · rcases j with _ | _ | _ | j
      · exact .inr ⟨hnot 0 hj 2 (by decide) hn (by decide), .inr ⟨hnot 0 hj 1 (by decide) hn (by decide), .inl ⟨hn, hr, ha⟩⟩⟩
      · exact .inr ⟨hnot 1 hj 2 (by decide) hn (by decide), .inl ⟨hn, hr, ha⟩⟩
      · exact .inl ⟨hn, hr, ha⟩
      · omega
    · have hno' : ∀ j < 3, ¬ (n = facility_key j f ∧ Role a c) := fun j hj h => hno ⟨⟨j, hj, h.1⟩, h.2⟩
      exact .inr ⟨hno' 2 (by decide), .inr ⟨hno' 1 (by decide), .inr ⟨hno' 0 (by decide), hm⟩⟩⟩

theorem dest_ptr_role {x : Nat} {a : UInt8} : ¬ Role a (dest_ptr x) := by
  obtain ⟨h₁, h₂⟩ : dest_ptr x ≠ facility_change_ptr ∧ dest_ptr x ≠ facility_delete_ptr := by
    unfold dest_ptr
    split <;> decide
  rintro (⟨h, -⟩ | ⟨h, -⟩)
  · exact h₁ h
  · exact h₂ h

/-- A new facility whose keys are not those of another one. -/
theorem Wired.added {env : Option Bytes} {w w' : Logging} {f : Bytes} (h : Wired env w) (hadd : Added w f w')
    (hf : ∀ i < w.log_type_ct, (w.log_types i).facility_name.map childByte ≠ f.map childByte) : Wired env w' := by
  have hcases : ∀ {i}, i < w'.log_type_ct → i < w.log_type_ct ∨ i = w.log_type_ct := by
    intro i hi
    rw [hadd.log_type_ct] at hi
    omega
  refine ⟨?_, hadd.cbs, ?_, fun i hi k hk hik => ?_, fun n a c arg => ?_⟩
  · rw [hadd.reg]
    exact sound_cbs h.sound _
  · rw [hadd.log_type_ct]
    exact hadd.room
  · rcases hcases hi with hi | rfl <;> rcases hcases hk with hk | rfl
    · rw [hadd.name i hi, hadd.name k hk] at hik
      exact h.apart i hi k hk hik
    · rw [hadd.name i hi, hadd.name_new] at hik
      exact absurd hik (hf i hi)
    · rw [hadd.name k hk, hadd.name_new] at hik
      exact absurd hik.symm (hf k hk)
    · rfl
  · rw [hadd.regs, setFacilities_apply, h.regs]
    constructor
    · rintro (⟨j, hj, hn, hr, ha⟩ | ⟨-, ⟨i, hi, j, hj, hn, hr, ha⟩ | hdest⟩)
      · exact .inl ⟨w.log_type_ct, by rw [hadd.log_type_ct]; omega, j, hj, by rw [hadd.name_new, hn], hr, ha⟩
      · exact .inl ⟨i, by rw [hadd.log_type_ct]; omega, j, hj, by rw [hadd.name i hi, hn], hr, ha⟩
      · exact .inr hdest
    · rintro (⟨i, hi, j, hj, hn, hr, ha⟩ | hdest)
      · rcases hcases hi with hi | rfl
        · rw [hadd.name i hi] at hn
          refine .inr ⟨?_, .inl ⟨i, hi, j, hj, hn, hr, ha⟩⟩
          rintro ⟨⟨k, hk, hnk⟩, -⟩
          exact hf i hi (facility_key_inj hj hk (hn.symm.trans hnk)).2
        · rw [hadd.name_new] at hn
          exact .inl ⟨j, hj, hn, hr, ha⟩
      · refine .inr ⟨fun hr => ?_, .inr hdest⟩
        obtain ⟨-, x, -, -, -, rfl, -⟩ := hdest
        exact dest_ptr_role hr.2

/-! ## The registrations of the destinations -/

theorem setSlot_apply (m : Bytes → UInt8 → UInt64 → Option UInt64) (x : Nat) (n : Bytes) (a : UInt8) (c arg : UInt64) :
    setSlot m x n a c = some arg ↔ (n = dest_key x ∧ a ∈ bits NR_REG_CB_ACTIONS ∧ c = dest_ptr x ∧ arg = 0) ∨
      (¬ (n = dest_key x ∧ a ∈ bits NR_REG_CB_ACTIONS ∧ c = dest_ptr x) ∧ m n a c = some arg) := by
  unfold setSlot setReg
  by_cases hx : n = dest_key x ∧ a ∈ bits NR_REG_CB_ACTIONS ∧ c = dest_ptr x
  · rw [if_pos hx]
    simp [hx.1, hx.2.1, hx.2.2, eq_comm]
  · rw [if_neg hx]
    constructor
    · exact fun hm => .inr ⟨hx, hm⟩
    · rintro (⟨hn, ha, hc, -⟩ | ⟨-, hm⟩)
      · exact absurd ⟨hn, ha, hc⟩ hx
      · exact hm

/-- Registering for keys that are registered for changes nothing. -/
theorem setSlots_same {m : Bytes → UInt8 → UInt64 → Option UInt64} {xs : List Nat}
    (h : ∀ x ∈ xs, ∀ a ∈ bits NR_REG_CB_ACTIONS, m (dest_key x) a (dest_ptr x) = some 0) : xs.foldl setSlot m = m := by
  induction xs with
  | nil => rfl
  | cons x xs ih =>
    have hsame : setSlot m x = m := by
      funext n a c
      unfold setSlot setReg
      split
      · rename_i hx
        rw [hx.1, hx.2.2]
        exact (h x (by simp) a hx.2.1).symm
      · rfl
    rw [List.foldl_cons, hsame]
    exact ih fun y hy => h y (by simp [hy])

/-- Registering for keys that nothing is registered for. -/
theorem setSlots_apply {m : Bytes → UInt8 → UInt64 → Option UInt64} {xs : List Nat} (hm : ∀ n a c, m n a c = none)
    (n : Bytes) (a : UInt8) (c arg : UInt64) : xs.foldl setSlot m n a c = some arg ↔
      ∃ x ∈ xs, n = dest_key x ∧ a ∈ bits NR_REG_CB_ACTIONS ∧ c = dest_ptr x ∧ arg = 0 := by
  induction xs using List.reverseRecOn with
  | nil => simp [hm]
  | append_singleton xs x ih =>
    rw [List.foldl_append, List.foldl_cons, List.foldl_nil, setSlot_apply, ih]
    constructor
    · rintro (hx | ⟨-, y, hy, hrest⟩)
      · exact ⟨x, by simp, hx⟩
      · exact ⟨y, by simp [hy], hrest⟩
    · rintro ⟨y, hy, hn, ha, hc, harg⟩
      by_cases hx : n = dest_key x ∧ a ∈ bits NR_REG_CB_ACTIONS ∧ c = dest_ptr x
      · exact .inl ⟨hx.1, hx.2.1, hx.2.2, harg⟩
      · rcases List.mem_append.1 hy with hy | hy
        · exact .inr ⟨hx, y, hy, hn, ha, hc, harg⟩
        · rw [List.mem_singleton] at hy
          subst hy
          exact absurd ⟨hn, ha, hc⟩ hx

end Nrappkit.Log
