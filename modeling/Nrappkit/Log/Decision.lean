import Nrappkit.Log.Startup
import Nrappkit.Log.Coherence
/-!
# Whether a line is logged

`r_logging_dest` compares a level with the threshold of a destination. The
index test lets the number right behind the table through, so the entry that
the next facility will get is read, or what lies behind the array.
-/
open Lib Nrappkit.Registry

namespace Nrappkit.Log

namespace Logger

/-- `log_types[i].level[j]`, in an array of `MAX_LOG_TYPES` entries. -/
def level_at (w : Logger) (i j : Nat) : Option Int :=
  if i < MAX_LOG_TYPES then some ((w.log_types i).level j) else none

def r_logging_dest (env : Environment) (w : Logger) (dest_index : Nat) (facility level : Int) : Option (Bool × Logger) := do
  let w ← _r_log_init env false w
  let dest := w.log_destinations dest_index
  if dest.enabled = 0 then some (false, w)
  else if level ≤ w.r_log_level_environment then some (true, w)
  else if w.r_log_initted < R_LOG_INITTED2 then some (level ≤ w.r_log_level, w)
  else if facility < 0 ∨ facility > w.log_type_ct then some (level ≤ w.r_log_level, w)
  else
    let own ← w.level_at facility.toNat dest_index
    if own = LOG_LEVEL_NONE then some (false, w)
    else
      let thresh := if own ≥ 0 then own
        else if dest.default_level ≠ LOG_LEVEL_UNDEFINED then dest.default_level
        else w.r_log_level
      some (level ≤ thresh, w)

/-- The loop of `r_logging`, for the destinations of a list. -/
def logging_dests (env : Environment) (facility level : Int) : List Nat → Logger → Option (Bool × Logger)
  | [], w => some (false, w)
  | j :: js, w =>
    match r_logging_dest env w j facility level with
    | none => none
    | some (true, w) => some (true, w)
    | some (false, w) => logging_dests env facility level js w

/-- Logging is on for a destination. -/
def r_logging (env : Environment) (w : Logger) (facility level : Int) : Option (Bool × Logger) := do
  let w ← _r_log_init env false w
  logging_dests env facility level (List.range LOG_NUM_DESTINATIONS) w

end Logger

/-! ## The machine -/

inductive LoggerOp where
  | register (facility_name : Bytes)
  | logging (facility level : Int)
  | set_extra_destination (default_level : Int) (dest_vlog : Bool)
  | log_init
  | reg_init
  | set (name : Bytes) (arg : Arg)
  | del (name : Bytes)

/-- A call of the registry, which must be there, and the callbacks it announces. -/
def Logger.announce (env : Environment) (w : Logger) (o : Option (Status × Reg)) : Option (Status × Logger) :=
  if w.reg_initted then
    (Log.announce env.R_LOG_DESTINATION w.toLogging o).map fun (r, l) => (r, { w with toLogging := l })
  else none

def loggerStep (env : Environment) (w : Logger) : LoggerOp → Option (Status × Logger)
  | .register facility_name => (w.r_log_register facility_name).map fun (r, _, w) => (r, w)
  | .logging facility level => (w.r_logging env facility level).map fun (_, w) => (.ok, w)
  | .set_extra_destination default_level dest_vlog => some (w.r_log_set_extra_destination default_level dest_vlog)
  | .log_init => (Logger._r_log_init env true w).map fun w => (.ok, w)
  | .reg_init => w.NR_reg_init env
  | .set name arg => w.announce env (Registry.set (fun _ => 0) w.reg name arg)
  | .del name => w.announce env (nr_reg_local_del (fun _ => 0) w.reg name)

/-- The runs of a process, from its start. -/
def LoggerReaches (env : Environment) (evs : List (LoggerOp × Status)) (w : Logger) : Prop :=
  Run (loggerStep env) (fun _ _ => True) Logger.static evs w

/-! ## The decision -/

/-- The threshold of a destination for a facility number, if the number is not
shut out. -/
def threshold (w : Logger) (j : Nat) (facility : Int) : Option Int :=
  if 0 ≤ facility ∧ facility < w.log_type_ct then
    let own := (w.log_types facility.toNat).level j
    if own = LOG_LEVEL_NONE then none
    else if own ≠ LOG_LEVEL_UNDEFINED then some own
    else if (w.log_destinations j).default_level ≠ LOG_LEVEL_UNDEFINED then some (w.log_destinations j).default_level
    else some w.r_log_level
  else some w.r_log_level

def Wanted (w : Logger) (j : Nat) (facility level : Int) : Prop := ∃ T, threshold w j facility = some T ∧ level ≤ T

/-- Every enabled destination follows its threshold, and `r_logging` is their
disjunction. -/
structure Decides (env : Environment) (w : Logger) (facility level : Int) : Prop where
  dest : ∀ j < LOG_NUM_DESTINATIONS, (w.log_destinations j).enabled ≠ 0 → level > w.r_log_level_environment →
    ∃ yes, w.r_logging_dest env j facility level = some (yes, w) ∧ (yes = true ↔ Wanted w j facility level)
  any : ∃ yes, w.r_logging env facility level = some (yes, w) ∧
    (yes = true ↔ ∃ j < LOG_NUM_DESTINATIONS, w.r_logging_dest env j facility level = some (true, w))

/-! ## What every run keeps -/

/-- The registrations of the module point into the table, no level is below
`LOG_LEVEL_NONE`, and the levels behind the table are as they were. -/
structure Tied (w : Logging) : Prop where
  cbs : CInv w.reg.cbs
  room : w.log_type_ct ≤ MAX_LOG_TYPES
  regs : ∀ n a c arg, w.reg.cbs.regs n a c = some arg → FacilityWire w n a c arg ∨ DestWire none n a c arg
  level : ∀ i j, LOG_LEVEL_NONE ≤ (w.log_types i).level j
  behind : ∀ i, w.log_type_ct ≤ i → ∀ j, (w.log_types i).level j = 0

namespace Tied
variable {w w' : Logging}

theorem dests (h : Tied w) (log_destinations : Nat → log_destination) : Tied { w with log_destinations } :=
  ⟨h.cbs, h.room, h.regs, h.level, h.behind⟩

/-- The registrations may be others of the same kind. -/
theorem rewire (h : Tied w) {reg : Reg} (hc : CInv reg.cbs)
    (hregs : ∀ n a c arg, reg.cbs.regs n a c = some arg → w.reg.cbs.regs n a c = some arg ∨ DestWire none n a c arg) :
    Tied { w with reg } where
  cbs := hc
  room := h.room
  regs n a c arg hreg := by
    rcases hregs n a c arg hreg with hold | hdest
    · exact h.regs n a c arg hold
    · exact .inr hdest
  level := h.level
  behind := h.behind

theorem setLevel (h : Tied w) {i j : Nat} (hi : i < w.log_type_ct) {level : Int} (hlevel : LOG_LEVEL_NONE ≤ level) :
    Tied (w.setLevel i j level) where
  cbs := h.cbs
  room := h.room
  regs n a c arg hreg := by
    rcases h.regs n a c arg hreg with ⟨k, hk, l, hl, hn, hrest⟩ | hdest
    · exact .inl ⟨k, hk, l, hl, by rw [Logging.setLevel_name, hn], hrest⟩
    · exact .inr hdest
  level k l := by
    rw [Logging.setLevel_level]
    split
    · exact hlevel
    · exact h.level k l
  behind k hk l := by
    have hne : ¬ (k = i ∧ l = j) := fun heq => Nat.not_lt.2 hk (heq.1.symm ▸ hi)
    rw [Logging.setLevel_level, if_neg hne]
    exact h.behind k hk l

/-- A new facility. -/
theorem wrote {f : Bytes} (h : Tied w) (hroom : w.log_type_ct ≠ MAX_LOG_TYPES) (hw : Wrote (enter w f) w.log_type_ct w') :
    Tied w' := by
  have hct : w'.log_type_ct = w.log_type_ct + 1 := hw.log_type_ct
  have henter : ∀ k, ((enter w f).log_types k).level = (w.log_types k).level := by
    intro k
    by_cases hk : k = w.log_type_ct
    · rw [hk, enter_new]
    · rw [show (enter w f).log_types k = w.log_types k from Function.update_of_ne hk ..]
  refine ⟨hw.cbs, ?_, fun n a c arg hreg => ?_, fun i j => ?_, fun i hi j => ?_⟩
  · rw [hct]
    exact Nat.lt_of_le_of_ne h.room hroom
  · rcases hw.regs n a c arg hreg with hold | ⟨j, hj, hn, hrest⟩
    · rcases h.regs n a c arg hold with ⟨i, hi, j, hj, hn, hrest⟩ | hdest
      · refine .inl ⟨i, by rw [hct]; exact Nat.lt_succ_of_lt hi, j, hj, ?_, hrest⟩
        rw [hw.name, enter_other w f hi, hn]
      · exact .inr hdest
    · exact .inl ⟨w.log_type_ct, by rw [hct]; exact Nat.lt_succ_self _, j, hj, by rw [hw.name, hn], hrest⟩
  · by_cases hi : i = w.log_type_ct
    · subst hi
      rcases hw.level j with heq | hle
      · rw [heq, henter]
        exact h.level _ j
      · exact hle
    · rw [hw.other i hi, henter]
      exact h.level i j
  · rw [hct] at hi
    rw [hw.other i (Nat.ne_of_gt hi), henter]
    exact h.behind i (Nat.le_of_succ_le hi) j

theorem register {w w' : Logger} (h : Tied w.toLogging) {f : Bytes} {r : Status} {o : Option Nat}
    (hst : w.r_log_register f = some (r, o, w')) : Tied w'.toLogging := by
  rcases register_cases h.cbs hst with ⟨-, rfl, -⟩ | ⟨-, ⟨-, -, rfl⟩ | ⟨hroom, -, -, l, rfl, hwrote⟩⟩
  · exact h
  · exact h
  · exact h.wrote hroom hwrote

end Tied

/-! ## Reading the destinations -/

/-- One key, whatever the registry holds. -/
theorem get_slot_kept {w w' : Logging} (hc : CInv w.reg.cbs) {x : Nat} (hx : x < 6) {r : Status}
    (h : get_slot w x = some (r, w')) : Kept w w' ∧ w'.reg.cbs.regs = setSlot w.reg.cbs.regs x := by
  obtain ⟨hv, hlen⟩ := dest_key_valid x hx
  obtain ⟨cbs, hreg, hc', hregs⟩ := register_callback_ok hc 0
    (show dest_ptr x ≠ 0 by unfold dest_ptr; split <;> decide) hv (show leftover NR_REG_CB_ACTIONS = 0 by decide)
  have hkept : Kept w (w.setCbs cbs) := ⟨rfl, hc', rfl, rfl⟩
  have hdest : ∀ d, Kept w ((w.setCbs cbs).setDest (x / 2) d) := fun d => ⟨rfl, hc', rfl, rfl⟩
  unfold get_slot at h
  by_cases hpar : x % 2 = 0
  · have hkey : dest_key x = level_key (x / 2) := if_pos hpar
    have hptr : dest_ptr x = default_level_change_ptr := if_pos hpar
    rw [hkey] at hlen
    rw [hkey, hptr] at hreg
    rw [if_pos hpar, get_default_level] at h
    dsimp only at h
    rw [if_neg (Nat.not_le.2 hlen), hreg] at h
    dsimp only at h
    repeat' split at h
    all_goals cases h
    · exact ⟨hdest _, hregs⟩
    · exact ⟨hkept, hregs⟩
    · exact ⟨hdest _, hregs⟩
  · have hkey : dest_key x = enabled_key (x / 2) := if_neg hpar
    have hptr : dest_ptr x = destination_change_ptr := if_neg hpar
    rw [hkey] at hlen
    rw [hkey, hptr] at hreg
    rw [if_neg hpar, get_enabled] at h
    dsimp only at h
    rw [if_neg (Nat.not_le.2 hlen), hreg] at h
    dsimp only at h
    repeat' split at h
    all_goals cases h
    · exact ⟨hdest _, hregs⟩
    · exact ⟨hkept, hregs⟩
    · exact ⟨hdest _, hregs⟩

theorem get_slots_tied {xs : List Nat} (hxs : ∀ x ∈ xs, x < 6) {w w' : Logging} (h : Tied w) {r : Status}
    (hg : get_slots xs w = some (r, w')) : Tied w' ∧ w'.log_type_ct = w.log_type_ct := by
  induction xs generalizing w with
  | nil =>
    cases hg
    exact ⟨h, rfl⟩
  | cons x xs ih =>
    rw [get_slots] at hg
    cases hslot : get_slot w x with
    | none =>
      rw [hslot] at hg
      cases hg
    | some o =>
      obtain ⟨r₁, w₁⟩ := o
      have hx := hxs x List.mem_cons_self
      obtain ⟨hkept, hregs⟩ := get_slot_kept h.cbs hx hslot
      have hone : Tied w₁ := by
        have hrewired : Tied { w with reg := w₁.reg } := h.rewire hkept.cbs fun n a c arg hreg => by
          rw [hregs, setSlot_apply] at hreg
          rcases hreg with ⟨hn, ha, hcb, harg⟩ | ⟨-, hold⟩
          · exact .inr ⟨rfl, x, hx, hn, ha, hcb, harg⟩
          · exact .inl hold
        have heq : w₁ = { { w with reg := w₁.reg } with log_destinations := w₁.log_destinations } := by
          obtain ⟨-, -, htypes, hct⟩ := hkept
          cases w₁
          cases htypes
          cases hct
          rfl
        rw [heq]
        exact hrewired.dests _
      rw [hslot] at hg
      cases r₁ with
      | ok =>
        obtain ⟨hrest, hct⟩ := ih (fun y hy => hxs y (List.mem_cons_of_mem x hy)) hone hg
        exact ⟨hrest, hct.trans hkept.log_type_ct⟩
      | _ =>
        cases hg
        exact ⟨hone, hkept.log_type_ct⟩

theorem get_destinations_tied {env : Option Bytes} {w w' : Logging} (h : Tied w) {r : Status}
    (hg : Log.r_log_get_destinations env w = some (r, w')) : Tied w' ∧ w'.log_type_ct = w.log_type_ct := by
  cases env with
  | some log =>
    cases hg
    exact ⟨h.dests _, rfl⟩
  | none =>
    rw [Log.r_log_get_destinations, get_destinations_eq] at hg
    exact get_slots_tied (by decide) h hg

/-! ## Callbacks -/

/-- A call of one of the callbacks for facilities gets the address of a level in
the table. -/
def Aimed (log_type_ct : Nat) (c : Invocation) : Prop :=
  c.cb = facility_change_ptr ∨ c.cb = facility_delete_ptr → ∃ i < log_type_ct, ∃ j < 3, c.cb_arg = level_ptr i j

theorem Tied.aimed {w : Logging} (h : Tied w) {c : Invocation} {n : Bytes} {a : UInt8}
    (hreg : w.reg.cbs.regs n a c.cb = some c.cb_arg) : Aimed w.log_type_ct c := by
  intro hcb
  rcases h.regs _ _ _ _ hreg with ⟨i, hi, j, hj, -, -, harg⟩ | ⟨-, x, -, -, -, hptr, -⟩
  · exact ⟨i, hi, j, hj, harg⟩
  · rw [hptr] at hcb
    have hrole : ∃ a, Role a (dest_ptr x) := by
      rcases hcb with hcb | hcb
      · exact ⟨_, .inl ⟨hcb, bits_change.2 (.inl rfl)⟩⟩
      · exact ⟨_, .inr ⟨hcb, bits_delete.2 rfl⟩⟩
    obtain ⟨a, hrole⟩ := hrole
    exact absurd hrole dest_ptr_role

theorem Tied.call {env : Option Bytes} {w w' : Logging} (h : Tied w) {c : Invocation} (ha : Aimed w.log_type_ct c)
    (hc : Log.call env w c = some w') : Tied w' ∧ w'.log_type_ct = w.log_type_ct := by
  have hindex : c.cb = facility_change_ptr ∨ c.cb = facility_delete_ptr → (levelIndex c.cb_arg).1 < w.log_type_ct := by
    intro hcb
    obtain ⟨i, hi, j, hj, harg⟩ := ha hcb
    rw [(levelIndex_eq (Nat.le_of_lt (Nat.lt_of_lt_of_le hi h.room)) hj _).2 harg]
    exact hi
  unfold Log.call at hc
  by_cases h₁ : c.cb = facility_change_ptr
  · rw [if_pos h₁, r_log_facility_change_cb] at hc
    split at hc
    · cases hc
    · cases hc
      exact ⟨h, rfl⟩
    · rename_i level hget
      cases hc
      exact ⟨h.setLevel (hindex (.inl h₁)) (get_reg_level_ge hget), rfl⟩
  rw [if_neg h₁] at hc
  by_cases h₂ : c.cb = facility_delete_ptr
  · rw [if_pos h₂] at hc
    cases hc
    exact ⟨h.setLevel (hindex (.inr h₂)) (by decide), rfl⟩
  rw [if_neg h₂] at hc
  split at hc
  · obtain ⟨⟨r, w₁⟩, hget, rfl⟩ := Option.map_eq_some_iff.1 hc
    exact get_destinations_tied h hget
  · cases hc
    exact ⟨h, rfl⟩

theorem Tied.calls {env : Option Bytes} {cs : List Invocation} {w w' : Logging} (h : Tied w)
    (ha : ∀ c ∈ cs, Aimed w.log_type_ct c) (hc : Log.calls env cs w = some w') : Tied w' := by
  induction cs generalizing w with
  | nil =>
    cases hc
    exact h
  | cons c cs ih =>
    obtain ⟨w₁, hone, hrest⟩ := Option.bind_eq_some_iff.1 hc
    obtain ⟨h₁, hct⟩ := h.call (ha c List.mem_cons_self) hone
    refine ih h₁ (fun d hd => ?_) hrest
    rw [hct]
    exact ha d (List.mem_cons_of_mem c hd)

/-- A call of the registry, and the callbacks it announces. -/
theorem Tied.announce {env : Option Bytes} {w w' : Logging} (h : Tied w) {o : Option (Status × Reg)}
    (ho : ∀ r s, o = some (r, s) → Raises (fun _ => 0) w.reg s) {r : Status}
    (hst : Log.announce env w o = some (r, w')) : Tied w' := by
  obtain ⟨⟨r₁, s⟩, hs, hcalls⟩ := Option.bind_eq_some_iff.1 hst
  obtain ⟨w₁, hcalls, heq⟩ := Option.map_eq_some_iff.1 hcalls
  cases heq
  obtain ⟨new, calls, hev, hd, -⟩ := ho _ _ hs
  obtain ⟨hsame, hreg⟩ := delivers_registered h.cbs hd
  rw [announced_eq hev hd] at hcalls
  have htied : Tied { w with reg := s } := h.rewire (hsame ▸ h.cbs) fun n a c arg hreg => .inl (hsame ▸ hreg)
  refine htied.calls (fun c hc => ?_) hcalls
  obtain ⟨action, hreg⟩ := hreg c hc
  exact h.aimed hreg

/-! ## Every step -/

theorem log_get_destinations_tied {env : Environment} {usereg : Bool} {w w' : Logger} (h : Tied w.toLogging) {r : Status}
    (hg : w.r_log_get_destinations env usereg = some (r, w')) : Tied w'.toLogging := by
  unfold Logger.r_log_get_destinations at hg
  split at hg
  · cases hg
    exact h
  split at hg
  · cases hg
  obtain ⟨⟨r₁, l⟩, hget, heq⟩ := Option.map_eq_some_iff.1 hg
  cases heq
  exact (get_destinations_tied h hget).1

theorem get_default_level_log (env : Environment) (w : Logger) :
    (Logger.r_log_get_default_level env w).toLogging = w.toLogging := by
  unfold Logger.r_log_get_default_level
  cases env.R_LOG_LEVEL <;> rfl

theorem log_init_tied {env : Environment} {use_reg : Bool} {w w' : Logger} (h : Tied w.toLogging)
    (hi : Logger._r_log_init env use_reg w = some w') : Tied w'.toLogging := by
  have hdefault : Tied (Logger.r_log_get_default_level env w).toLogging := by rwa [get_default_level_log]
  unfold Logger._r_log_init at hi
  split at hi
  · split at hi
    · obtain ⟨⟨r, w₁⟩, hget, heq⟩ := Option.bind_eq_some_iff.1 hi
      cases heq
      have h₁ : Tied w₁.toLogging := log_get_destinations_tied hdefault hget
      exact h₁
    · cases hi
      exact h
  · split at hi
    · obtain ⟨⟨r, w₁⟩, hget, hi⟩ := Option.bind_eq_some_iff.1 hi
      obtain ⟨⟨r₂, o₂, w₂⟩, hgeneric, hi⟩ := Option.bind_eq_some_iff.1 hi
      obtain ⟨⟨r₃, o₃, w₃⟩, hlogging, heq⟩ := Option.bind_eq_some_iff.1 hi
      cases heq
      have h₁ := log_get_destinations_tied hdefault hget
      have h₂ := h₁.register hgeneric
      have h₃ : Tied w₃.toLogging := h₂.register hlogging
      exact h₃
    · cases hi
      exact h

theorem reg_init_tied {env : Environment} {w w' : Logger} (h : Tied w.toLogging) {r : Status}
    (hi : w.NR_reg_init env = some (r, w')) : Tied w'.toLogging := by
  unfold Logger.NR_reg_init at hi
  split at hi
  · cases hi
    exact h
  obtain ⟨⟨r₁, s⟩, hlocal, hi⟩ := Option.bind_eq_some_iff.1 hi
  obtain ⟨new, calls, -, hd, -⟩ := set_registry_raises _ _ _ _ _ hlocal
  obtain ⟨hcbs, -⟩ := delivers_registered init_cinv hd
  have hstart : Tied { w.toLogging with reg := s } := by
    refine h.rewire (hcbs ▸ init_cinv) fun n a c arg hreg => ?_
    rw [hcbs, init_regs] at hreg
    cases hreg
  dsimp only at hi
  split at hi
  · obtain ⟨w₁, hinit, heq⟩ := Option.map_eq_some_iff.1 hi
    cases heq
    exact log_init_tied hstart hinit
  · obtain ⟨w₁, hinit, hi⟩ := Option.bind_eq_some_iff.1 hi
    obtain ⟨⟨r₂, o₂, w₂⟩, hregistry, heq⟩ := Option.bind_eq_some_iff.1 hi
    cases heq
    have h₁ := log_init_tied hstart hinit
    exact h₁.register hregistry

theorem set_extra_destination_tied {w : Logger} (h : Tied w.toLogging) (default_level : Int) (dest_vlog : Bool) :
    Tied (w.r_log_set_extra_destination default_level dest_vlog).2.toLogging := by
  unfold Logger.r_log_set_extra_destination
  split
  · exact h
  · exact h.dests _

theorem logging_tied {env : Environment} {w w' : Logger} (h : Tied w.toLogging) {facility level : Int} {yes : Bool}
    (hl : w.r_logging env facility level = some (yes, w')) : Tied w'.toLogging := by
  have hdest : ∀ w w' : Logger, Tied w.toLogging → ∀ j yes, w.r_logging_dest env j facility level = some (yes, w') →
      Tied w'.toLogging := by
    intro w w' h j yes hd
    obtain ⟨w₁, hinit, hd⟩ := Option.bind_eq_some_iff.1 hd
    have h₁ := log_init_tied h hinit
    dsimp only at hd
    repeat' split at hd
    all_goals first
      | cases hd; exact h₁
      | obtain ⟨own, -, hd⟩ := Option.bind_eq_some_iff.1 hd
        split at hd <;> cases hd <;> exact h₁
  have hdests : ∀ js, ∀ w w' : Logger, Tied w.toLogging → ∀ yes, Logger.logging_dests env facility level js w = some (yes, w') →
      Tied w'.toLogging := by
    intro js
    induction js with
    | nil =>
      intro w w' h yes hd
      cases hd
      exact h
    | cons j js ih =>
      intro w w' h yes hd
      rw [Logger.logging_dests] at hd
      split at hd
      · cases hd
      · rename_i w₁ hone
        cases hd
        exact hdest _ _ h _ _ hone
      · rename_i w₁ hone
        exact ih _ _ (hdest _ _ h _ _ hone) _ hd
  obtain ⟨w₁, hinit, hd⟩ := Option.bind_eq_some_iff.1 hl
  exact hdests _ _ _ (log_init_tied h hinit) _ hd

theorem logger_announce_tied {env : Environment} {w w' : Logger} (h : Tied w.toLogging) {o : Option (Status × Reg)}
    (ho : ∀ r s, o = some (r, s) → Raises (fun _ => 0) w.reg s) {r : Status} (hst : w.announce env o = some (r, w')) :
    Tied w'.toLogging := by
  unfold Logger.announce at hst
  split at hst
  · obtain ⟨⟨r₁, l⟩, hl, heq⟩ := Option.map_eq_some_iff.1 hst
    cases heq
    exact h.announce ho hl
  · cases hst

theorem step_tied {env : Environment} {w w' : Logger} (h : Tied w.toLogging) {op : LoggerOp} {r : Status}
    (hst : loggerStep env w op = some (r, w')) : Tied w'.toLogging := by
  cases op with
  | register f =>
    obtain ⟨⟨r₁, o, w₁⟩, hreg, heq⟩ := Option.map_eq_some_iff.1 hst
    cases heq
    exact h.register hreg
  | logging facility level =>
    obtain ⟨⟨yes, w₁⟩, hl, heq⟩ := Option.map_eq_some_iff.1 hst
    cases heq
    exact logging_tied h hl
  | set_extra_destination default_level dest_vlog =>
    obtain rfl : (w.r_log_set_extra_destination default_level dest_vlog).2 = w' := congrArg Prod.snd (Option.some.inj hst)
    exact set_extra_destination_tied h default_level dest_vlog
  | log_init =>
    obtain ⟨w₁, hi, heq⟩ := Option.map_eq_some_iff.1 hst
    cases heq
    exact log_init_tied h hi
  | reg_init => exact reg_init_tied h hst
  | set name arg => exact logger_announce_tied h (fun _ _ => set_raises) hst
  | del name => exact logger_announce_tied h (fun _ _ => del_raises) hst

theorem static_tied : Tied Logger.static.toLogging where
  cbs := init_cinv
  room := Nat.zero_le _
  regs n a c arg hreg := by
    replace hreg : nr_reg_cb_init.regs n a c = some arg := hreg
    rw [init_regs] at hreg
    cases hreg
  level _ _ := by
    show LOG_LEVEL_NONE ≤ 0
    decide
  behind _ _ _ := rfl

theorem LoggerReaches.tied {env : Environment} {evs : List (LoggerOp × Status)} {w : Logger} (h : LoggerReaches env evs w) :
    Tied w.toLogging :=
  Run.inv (fun w => Tied w.toLogging) static_tied (fun _ _ _ _ h _ hst => step_tied h hst) h

/-! ## One destination -/

section
variable {env : Environment} {w : Logger} {j : Nat} {facility level : Int}

theorem init_done (hinit : w.r_log_initted = R_LOG_INITTED2) : Logger._r_log_init env false w = some w := by
  unfold Logger._r_log_init
  rw [if_pos rfl, hinit, if_neg (by decide)]

/-- The answers that do not depend on the facility. -/
theorem dest_early (hinit : w.r_log_initted = R_LOG_INITTED2)
    (h : (w.log_destinations j).enabled = 0 ∨ level ≤ w.r_log_level_environment) :
    ∃ yes, w.r_logging_dest env j facility level = some (yes, w) := by
  unfold Logger.r_logging_dest
  rw [init_done hinit]
  by_cases henabled : (w.log_destinations j).enabled = 0
  · exact ⟨false, by simp [henabled]⟩
  · exact ⟨true, by simp [henabled, h.resolve_left henabled]⟩

/-- The answer of an enabled destination above the level of the environment. -/
theorem dest_late (hinit : w.r_log_initted = R_LOG_INITTED2) (henabled : (w.log_destinations j).enabled ≠ 0)
    (hlevel : level > w.r_log_level_environment) : w.r_logging_dest env j facility level =
      if facility < 0 ∨ facility > w.log_type_ct then some (decide (level ≤ w.r_log_level), w)
      else (w.level_at facility.toNat j).map fun own => (decide (own ≠ LOG_LEVEL_NONE ∧ level ≤
        if own ≥ 0 then own
        else if (w.log_destinations j).default_level ≠ LOG_LEVEL_UNDEFINED then (w.log_destinations j).default_level
        else w.r_log_level), w) := by
  have h₂ : ¬ w.r_log_initted < R_LOG_INITTED2 := by
    rw [hinit]
    exact Nat.lt_irrefl _
  unfold Logger.r_logging_dest
  rw [init_done hinit, Option.bind_eq_bind, Option.bind_some]
  dsimp only
  rw [if_neg henabled, if_neg (Int.not_le.2 hlevel), if_neg h₂]
  split
  · rfl
  · cases w.level_at facility.toNat j with
    | none => rfl
    | some own => by_cases hnone : own = LOG_LEVEL_NONE <;> simp [hnone]

/-- A number outside the table. -/
theorem dest_outside (hinit : w.r_log_initted = R_LOG_INITTED2) (henabled : (w.log_destinations j).enabled ≠ 0)
    (hlevel : level > w.r_log_level_environment) (hf : facility < 0 ∨ facility > w.log_type_ct) :
    ∃ yes, w.r_logging_dest env j facility level = some (yes, w) ∧ (yes = true ↔ Wanted w j facility level) := by
  have hthresh : threshold w j facility = some w.r_log_level := if_neg (by omega)
  refine ⟨_, by rw [dest_late hinit henabled hlevel, if_pos hf], ?_⟩
  simp [Wanted, hthresh]

/-- A number of the table. -/
theorem dest_registered (ht : Tied w.toLogging) (hinit : w.r_log_initted = R_LOG_INITTED2)
    (henabled : (w.log_destinations j).enabled ≠ 0) (hlevel : level > w.r_log_level_environment) (h0 : 0 ≤ facility)
    (hlt : facility < w.log_type_ct) :
    ∃ yes, w.r_logging_dest env j facility level = some (yes, w) ∧ (yes = true ↔ Wanted w j facility level) := by
  have hroom := ht.room
  have hin : facility.toNat < MAX_LOG_TYPES := by omega
  have hge := ht.level facility.toNat j
  have hat : w.level_at facility.toNat j = some ((w.log_types facility.toNat).level j) := if_pos hin
  have htable : 0 ≤ facility ∧ facility < w.log_type_ct := ⟨h0, hlt⟩
  have hnot : ¬ (facility < 0 ∨ facility > w.log_type_ct) := by omega
  refine ⟨_, by rw [dest_late hinit henabled hlevel, if_neg hnot, hat, Option.map_some], ?_⟩
  rw [Wanted, threshold, if_pos htable, decide_eq_true_eq]
  dsimp only
  generalize (w.log_types facility.toNat).level j = own at hge
  rw [LOG_LEVEL_NONE] at hge
  -- a level is set, `LOG_LEVEL_NONE` or `LOG_LEVEL_UNDEFINED`
  rcases (by omega : own = -2 ∨ own = -1 ∨ 0 ≤ own) with rfl | rfl | hset
  · simp [LOG_LEVEL_NONE]
  · by_cases hdefault : (w.log_destinations j).default_level = LOG_LEVEL_UNDEFINED
    · simp [LOG_LEVEL_NONE, LOG_LEVEL_UNDEFINED, hdefault]
    · rw [LOG_LEVEL_UNDEFINED] at hdefault
      simp [LOG_LEVEL_NONE, LOG_LEVEL_UNDEFINED, hdefault]
  · have hnone : own ≠ LOG_LEVEL_NONE := by rw [LOG_LEVEL_NONE]; omega
    have hundef : own ≠ LOG_LEVEL_UNDEFINED := by rw [LOG_LEVEL_UNDEFINED]; omega
    simp [hnone, hundef, hset]

/-- The number behind the table: the level there is 0, if it is in the array. -/
theorem dest_behind (ht : Tied w.toLogging) (hinit : w.r_log_initted = R_LOG_INITTED2)
    (henabled : (w.log_destinations j).enabled ≠ 0) (hlevel : level > w.r_log_level_environment)
    (hf : facility = w.log_type_ct) :
    (∃ yes, w.r_logging_dest env j facility level = some (yes, w) ∧ (yes = true ↔ Wanted w j facility level)) ↔
      w.log_type_ct < MAX_LOG_TYPES ∧ (level ≤ 0 ↔ level ≤ w.r_log_level) := by
  have hthresh : threshold w j facility = some w.r_log_level := if_neg (by omega)
  have hnot : ¬ (facility < 0 ∨ facility > w.log_type_ct) := by omega
  have hnum : facility.toNat = w.log_type_ct := by omega
  rw [dest_late hinit henabled hlevel, if_neg hnot, hnum]
  by_cases hroom : w.log_type_ct < MAX_LOG_TYPES
  · have hat : w.level_at w.log_type_ct j = some 0 := by
      rw [Logger.level_at, if_pos hroom, ht.behind _ (Nat.le_refl _)]
    simp [hat, Wanted, hthresh, hroom, LOG_LEVEL_NONE]
  · have hat : w.level_at w.log_type_ct j = none := if_neg hroom
    simp [hat, hroom]

/-! ## All destinations -/

theorem logging_dests_any {js : List Nat} (h : ∀ j ∈ js, ∃ yes, w.r_logging_dest env j facility level = some (yes, w)) :
    ∃ yes, Logger.logging_dests env facility level js w = some (yes, w) ∧
      (yes = true ↔ ∃ j ∈ js, w.r_logging_dest env j facility level = some (true, w)) := by
  induction js with
  | nil => exact ⟨false, rfl, by simp⟩
  | cons j js ih =>
    obtain ⟨yes, hone⟩ := h j List.mem_cons_self
    rw [Logger.logging_dests, hone]
    cases yes with
    | true => exact ⟨true, rfl, iff_of_true rfl ⟨j, List.mem_cons_self, hone⟩⟩
    | false =>
      obtain ⟨yes, hrest, hiff⟩ := ih fun k hk => h k (List.mem_cons_of_mem j hk)
      exact ⟨yes, hrest, by simp [hiff, hone]⟩

/-- The number is not the one behind the table, or the entry there is not looked
at, or gives the answer of the global level. -/
def Settled (w : Logger) (facility level : Int) : Prop :=
  facility ≠ w.log_type_ct ∨ level ≤ w.r_log_level_environment ∨
    (∀ j < LOG_NUM_DESTINATIONS, (w.log_destinations j).enabled = 0) ∨
    (w.log_type_ct < MAX_LOG_TYPES ∧ (level ≤ 0 ↔ level ≤ w.r_log_level))

theorem decides_iff (ht : Tied w.toLogging) (hinit : w.r_log_initted = R_LOG_INITTED2) :
    Decides env w facility level ↔ Settled w facility level := by
  constructor
  · intro h
    by_contra hno
    obtain ⟨hf, hlevel, hall, hbad⟩ : _ ∧ _ ∧ _ ∧ _ := by simpa only [Settled, not_or] using hno
    obtain ⟨j, hj, henabled⟩ : ∃ j < LOG_NUM_DESTINATIONS, (w.log_destinations j).enabled ≠ 0 := by
      simpa only [not_forall, exists_prop] using hall
    have hdest := h.dest j hj henabled (Int.not_le.1 hlevel)
    exact hbad ((dest_behind ht hinit henabled (Int.not_le.1 hlevel) (not_not.1 hf)).1 hdest)
  · intro h
    have hdest : ∀ j < LOG_NUM_DESTINATIONS, (w.log_destinations j).enabled ≠ 0 → level > w.r_log_level_environment →
        ∃ yes, w.r_logging_dest env j facility level = some (yes, w) ∧ (yes = true ↔ Wanted w j facility level) := by
      intro j hj henabled hlevel
      by_cases hf : facility = w.log_type_ct
      · refine (dest_behind ht hinit henabled hlevel hf).2 ?_
        rcases h with hne | hle | hall | hok
        · exact absurd hf hne
        · exact absurd hle (Int.not_le.2 hlevel)
        · exact absurd (hall j hj) henabled
        · exact hok
      · by_cases hin : 0 ≤ facility ∧ facility < w.log_type_ct
        · exact dest_registered ht hinit henabled hlevel hin.1 hin.2
        · exact dest_outside hinit henabled hlevel (by omega)
    refine ⟨hdest, ?_⟩
    have hreturns : ∀ j ∈ List.range LOG_NUM_DESTINATIONS, ∃ yes, w.r_logging_dest env j facility level = some (yes, w) := by
      intro j hj
      by_cases hearly : (w.log_destinations j).enabled = 0 ∨ level ≤ w.r_log_level_environment
      · exact dest_early hinit hearly
      · obtain ⟨henabled, hlevel⟩ := not_or.1 hearly
        obtain ⟨yes, hyes, -⟩ := hdest j (List.mem_range.1 hj) henabled (Int.not_le.1 hlevel)
        exact ⟨yes, hyes⟩
    obtain ⟨yes, hany, hiff⟩ := logging_dests_any hreturns
    refine ⟨yes, ?_, by simpa only [List.mem_range] using hiff⟩
    unfold Logger.r_logging
    rw [init_done hinit]
    exact hany

end

/-- A process with an extra destination, and what it does first. -/
def extraOps : List LoggerOp := [.reg_init, .set_extra_destination 7 true]

theorem extra_reached : ∃ evs w, LoggerReaches ⟨none, none⟩ evs w ∧ w.r_log_initted = R_LOG_INITTED2 ∧ w.log_type_ct = 3 ∧
    (w.log_destinations 2).enabled = 1 ∧ w.r_log_level_environment = 0 ∧ w.r_log_level = 5 := by
  have hex : (exec (loggerStep ⟨none, none⟩) (fun _ _ => true) Logger.static extraOps).any (fun x =>
      x.2.r_log_initted = R_LOG_INITTED2 && x.2.log_type_ct = 3 && (x.2.log_destinations 2).enabled = 1 &&
        x.2.r_log_level_environment = 0 && x.2.r_log_level = 5) = true := by decide +kernel
  obtain ⟨⟨rs, w⟩, htr, hx⟩ := (Option.any_eq_true _ _).1 hex
  simp only [Bool.and_eq_true, decide_eq_true_eq] at hx
  obtain ⟨⟨⟨⟨hinit, hct⟩, henabled⟩, henv⟩, hlevel⟩ := hx
  exact ⟨_, w, (Run.exec .nil htr).mono fun _ _ _ => trivial, hinit, hct, henabled, henv, hlevel⟩

/-- In every state that is initialized, the answers follow the thresholds except
for the number behind the table. -/
theorem r_logging_iff {env : Environment} {evs : List (LoggerOp × Status)} {w : Logger} (h : LoggerReaches env evs w)
    (hinit : w.r_log_initted = R_LOG_INITTED2) (facility level : Int) :
    Decides env w facility level ↔ Settled w facility level := decides_iff h.tied hinit

theorem r_logging_generic : ∃ w : Logger, (w.log_destinations 2).enabled = 1 ∧ Decides ⟨none, none⟩ w 0 3 := by
  obtain ⟨evs, w, h, hinit, hct, henabled, -⟩ := extra_reached
  exact ⟨w, henabled, (r_logging_iff h hinit 0 3).2 (.inl (by rw [hct]; decide))⟩

/-- An error of a facility that is not registered is not logged. -/
theorem number_behind_table : ∃ evs w, LoggerReaches ⟨none, none⟩ evs w ∧ w.r_log_initted = R_LOG_INITTED2 ∧
    ¬ Decides ⟨none, none⟩ w 3 3 := by
  obtain ⟨evs, w, h, hinit, hct, henabled, henv, hlevel⟩ := extra_reached
  refine ⟨evs, w, h, hinit, fun hd => ?_⟩
  rcases (decides_iff h.tied hinit).1 hd with hne | hle | hall | ⟨-, hiff⟩
  · rw [hct] at hne
    exact hne rfl
  · rw [henv] at hle
    exact absurd hle (by decide)
  · rw [hall 2 (by decide)] at henabled
    cases henabled
  · rw [hlevel] at hiff
    exact absurd (hiff.2 (by decide)) (by decide)

end Nrappkit.Log
