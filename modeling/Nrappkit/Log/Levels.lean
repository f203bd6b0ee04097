import Nrappkit.Registry.Announce
import Nrappkit.Registry.Remote
import Nrappkit.Registry.Entries
/-!
# Log levels

`r_log.c` keeps the levels of facilities and destinations in static arrays and
has itself called when their keys change. An array is a function of the index.
The addresses of the four callbacks are numbers, and so are the addresses of
the levels, which are passed to two of them.

The registry's calls come first and the callbacks they announce afterwards:
a setter stores its node and the missing ancestors before the first event, and
a deletion is done before its own.
-/
open Lib Nrappkit.Registry

namespace Nrappkit.Log

/-! ## The tables -/

def LOG_LEVEL_UNDEFINED : Int := -1
def LOG_LEVEL_NONE : Int := -2
def LOGGING_DEFAULT_LEVEL : Int := 5
def MAX_LOG_TYPES : Nat := 1024
def LOG_NUM_DESTINATIONS : Nat := 3

/-- From `LOG_EMERG`, which is 0, to `LOG_DEBUG`, which is 7. -/
def log_level_reg_strings : List Bytes :=
  [str "emergency", str "alert", str "critical", str "error", str "warning", str "notice", str "info", str "debug"]

structure log_type where
  facility_name : Bytes
  level : Nat → Int
  dest_facility_key : Nat → Bytes

structure log_destination where
  enabled : Int
  default_level : Int

/-- The static variables, with the registry. -/
structure Logging where
  reg : Reg
  log_types : Nat → log_type
  log_type_ct : Nat
  log_destinations : Nat → log_destination

/-- The names in `log_destinations`. -/
def dest_name : Nat → Bytes
  | 0 => str "stderr"
  | 1 => str "syslog"
  | _ => str "extra"

/-- What is passed to a callback for a level: `&(log_types[i].level[j])`. -/
def level_ptr (i j : Nat) : UInt64 := UInt64.ofNat (i * LOG_NUM_DESTINATIONS + j)

/-- `r_log_facility_change_cb` and the other callbacks, as addresses. -/
def facility_change_ptr : UInt64 := 1
def facility_delete_ptr : UInt64 := 2
def default_level_change_ptr : UInt64 := 3
def destination_change_ptr : UInt64 := 4

namespace Logging

def setType (w : Logging) (i : Nat) (t : log_type) : Logging := { w with log_types := Function.update w.log_types i t }

def setLevel (w : Logging) (i j : Nat) (level : Int) : Logging :=
  w.setType i { w.log_types i with level := Function.update (w.log_types i).level j level }

def setKey (w : Logging) (i j : Nat) (key : Bytes) : Logging :=
  w.setType i { w.log_types i with dest_facility_key := Function.update (w.log_types i).dest_facility_key j key }

def setDest (w : Logging) (j : Nat) (d : log_destination) : Logging :=
  { w with log_destinations := Function.update w.log_destinations j d }

def setCbs (w : Logging) (cbs : Cbs) : Logging := { w with reg := { w.reg with cbs } }

end Logging

/-- `NR_reg_register_callback` in the local registry. -/
def register_callback (w : Logging) (name : Bytes) (action : UInt8) (cb cb_arg : UInt64) : Option (Status × Logging) :=
  (NR_reg_register_callback w.reg.cbs name action cb cb_arg).map fun (r, cbs) => (r, w.setCbs cbs)

/-! ## Reading a level -/

def wordLevel (level : Bytes) : Int :=
  if strcasecmp level (str "none") = .eq then LOG_LEVEL_NONE
  else match log_level_reg_strings.findIdx? fun word => strcasecmp level word = .eq with
    | some i => i
    | none => LOG_LEVEL_UNDEFINED

/-- The buffer has 32 bytes. -/
def r_log_get_reg_level (s : Reg) (name : Bytes) : Option (Except Status Int) :=
  match nr_reg_local_get_string s name 32 with
  | none => none
  | some (.error r) => some (.error r)
  | some (.ok level) => (stringAt (level.map some)).map fun level => .ok (wordLevel level)

/-! ## Facilities -/

/-- One destination in the loop of `r_log_register`. -/
def register_dest (w : Logging) (i j : Nat) : Option (Status × Logging) :=
  let w := w.setLevel i j LOG_LEVEL_UNDEFINED
  let dest_prefix := str "logging." ++ dest_name j ++ str ".facility"
  if dest_prefix.length ≥ NR_REG_MAX_NR_REGISTRY_LEN then some (.R_INTERNAL, w)
  else match NR_reg_make_registry dest_prefix (w.log_types i).facility_name with
    | .error r => some (r, w)
    | .ok dest_facility_prefix =>
      let key := dest_facility_prefix ++ str ".level"
      let w := w.setKey i j (snprintf NR_REG_MAX_NR_REGISTRY_LEN key)
      if key.length ≥ NR_REG_MAX_NR_REGISTRY_LEN then some (.R_INTERNAL, w)
      else match r_log_get_reg_level w.reg key with
        | none => none
        | some level =>
          let w := match level with
            | .ok level => w.setLevel i j level
            | .error _ => w
          match register_callback w key (NR_REG_CB_ACTION_ADD ||| NR_REG_CB_ACTION_CHANGE) facility_change_ptr
            (level_ptr i j) with
          | none => none
          | some (.ok, w) => register_callback w key NR_REG_CB_ACTION_DELETE facility_delete_ptr (level_ptr i j)
          | some (r, w) => some (r, w)

/-- The loop of `r_log_register`, for the destinations of a list. -/
def register_dests (i : Nat) : List Nat → Logging → Option (Status × Logging)
  | [], w => some (.ok, w)
  | j :: js, w =>
    match register_dest w i j with
    | none => none
    | some (.ok, w) => register_dests i js w
    | some (r, w) => some (r, w)

/-- The entry of `log_types` with a name. -/
def find_facility (w : Logging) (facility_name : Bytes) : Option Nat :=
  (List.range w.log_type_ct).find? fun i => (w.log_types i).facility_name = facility_name

/-- The result, and what `log_facility` is set to. -/
def r_log_register (w : Logging) (facility_name : Bytes) : Option (Status × Option Nat × Logging) :=
  match find_facility w facility_name with
  | some i => some (.ok, some i, w)
  | none =>
    if w.log_type_ct = MAX_LOG_TYPES then some (.R_INTERNAL, none, w)
    else
      let i := w.log_type_ct
      let w := { w.setType i { w.log_types i with facility_name } with log_type_ct := i + 1 }
      (register_dests i (List.range LOG_NUM_DESTINATIONS) w).map fun (r, w) => (r, some i, w)

/-! ## Destinations -/

def NR_REG_CB_ACTIONS : UInt8 := NR_REG_CB_ACTION_ADD ||| NR_REG_CB_ACTION_CHANGE ||| NR_REG_CB_ACTION_DELETE

def level_key (j : Nat) : Bytes := str "logging." ++ dest_name j ++ str ".level"
def enabled_key (j : Nat) : Bytes := str "logging." ++ dest_name j ++ str ".enabled"

/-- The part of `r_log_get_destinations` for the default level. -/
def get_default_level (w : Logging) (j : Nat) : Option (Status × Logging) :=
  let reg_key := level_key j
  if reg_key.length ≥ NR_REG_MAX_NR_REGISTRY_LEN then some (.R_INTERNAL, w)
  else match register_callback w reg_key NR_REG_CB_ACTIONS default_level_change_ptr 0 with
    | none => none
    | some (_, w) =>
      match r_log_get_reg_level w.reg reg_key with
      | none => none
      | some (.error .R_NOT_FOUND) =>
        some (.ok, w.setDest j { w.log_destinations j with default_level := LOG_LEVEL_UNDEFINED })
      | some (.error _) => some (.R_INTERNAL, w)
      | some (.ok value) => some (.ok, w.setDest j { w.log_destinations j with default_level := value })

/-- The part for the `enabled` key. -/
def get_enabled (w : Logging) (j : Nat) : Option (Status × Logging) :=
  let reg_key := enabled_key j
  if reg_key.length ≥ NR_REG_MAX_NR_REGISTRY_LEN then some (.R_INTERNAL, w)
  else match register_callback w reg_key NR_REG_CB_ACTIONS destination_change_ptr 0 with
    | none => none
    | some (_, w) =>
      match nr_reg_local_get_char w.reg reg_key with
      | none => none
      | some (.error .R_NOT_FOUND) => some (.ok, w.setDest j { w.log_destinations j with enabled := 0 })
      | some (.error r) => some (r, w)
      | some (.ok (._char c)) => some (.ok, w.setDest j { w.log_destinations j with enabled := c.toInt })
      | some (.ok _) => none

/-- The loop over the registry, for the destinations of a list. -/
def get_destinations : List Nat → Logging → Option (Status × Logging)
  | [], w => some (.ok, w)
  | j :: js, w =>
    match get_default_level w j with
    | none => none
    | some (.ok, w) =>
      match get_enabled w j with
      | none => none
      | some (.ok, w) => get_destinations js w
      | some (r, w) => some (r, w)
    | some (r, w) => some (r, w)

/-- With `usereg`; `R_LOG_DESTINATION` is the variable of the environment. -/
def r_log_get_destinations (R_LOG_DESTINATION : Option Bytes) (w : Logging) : Option (Status × Logging) :=
  match R_LOG_DESTINATION with
  | some log => some (.ok, { w with log_destinations := fun j =>
      { w.log_destinations j with enabled := if log = dest_name j then 1 else 0 } })
  | none => get_destinations (List.range LOG_NUM_DESTINATIONS) w

/-! ## Callbacks -/

/-- Where a callback's argument points to. -/
def levelIndex (cb_arg : UInt64) : Nat × Nat :=
  (cb_arg.toNat / LOG_NUM_DESTINATIONS, cb_arg.toNat % LOG_NUM_DESTINATIONS)

def r_log_facility_change_cb (w : Logging) (cb_arg : UInt64) (name : Bytes) : Option Logging :=
  match r_log_get_reg_level w.reg name with
  | none => none
  | some (.error _) => some w
  | some (.ok level) => some (w.setLevel (levelIndex cb_arg).1 (levelIndex cb_arg).2 level)

def r_log_facility_delete_cb (w : Logging) (cb_arg : UInt64) : Logging :=
  w.setLevel (levelIndex cb_arg).1 (levelIndex cb_arg).2 LOG_LEVEL_UNDEFINED

/-- Both callbacks for destinations read them all again. -/
def r_log_destination_change_cb (env : Option Bytes) (w : Logging) : Option Logging :=
  (r_log_get_destinations env w).map Prod.snd

/-- Call a callback. -/
def call (env : Option Bytes) (w : Logging) (c : Invocation) : Option Logging :=
  if c.cb = facility_change_ptr then r_log_facility_change_cb w c.cb_arg c.name
  else if c.cb = facility_delete_ptr then some (r_log_facility_delete_cb w c.cb_arg)
  else if c.cb = default_level_change_ptr ∨ c.cb = destination_change_ptr then r_log_destination_change_cb env w
  else some w

/-- Call callbacks one after the other. -/
def calls (env : Option Bytes) : List Invocation → Logging → Option Logging
  | [], w => some w
  | c :: cs, w => (call env w c).bind (calls env cs)

/-! ## The machine -/

/-- The values of the static variables. -/
def static (reg : Reg) : Logging where
  reg
  log_types _ := { facility_name := [], level := fun _ => 0, dest_facility_key := fun _ => [] }
  log_type_ct := 0
  log_destinations j := { enabled := if j = 1 then 1 else 0, default_level := LOGGING_DEFAULT_LEVEL }

def r_log_init (env : Option Bytes) (w : Logging) : Option Logging := do
  let (_, w) ← r_log_get_destinations env w
  let (_, _, w) ← r_log_register w (str "generic")
  let (_, _, w) ← r_log_register w (str "logging")
  some w

def NR_reg_init (env : Option Bytes) : Option (Status × Logging) := do
  let (r, reg) ← nr_reg_local_init fun _ => 0
  if r ≠ .ok then some (r, static reg)
  else
    let w ← r_log_init env (static reg)
    let (_, _, w) ← r_log_register w (str "registry")
    some (.ok, w)

inductive LogOp where
  | register (facility_name : Bytes)
  | set (name : Bytes) (arg : Arg)
  | del (name : Bytes)

/-- A call of the registry, and the callbacks it announces. -/
def announce (env : Option Bytes) (w : Logging) (o : Option (Status × Reg)) : Option (Status × Logging) :=
  o.bind fun (r, reg) => (calls env (announced (fun _ => 0) w.reg reg) { w with reg }).map fun w => (r, w)

def logStep (env : Option Bytes) (w : Logging) : LogOp → Option (Status × Logging)
  | .register facility_name => (r_log_register w facility_name).map fun (r, _, w) => (r, w)
  | .set name arg => announce env w (set (fun _ => 0) w.reg name arg)
  | .del name => announce env w (nr_reg_local_del (fun _ => 0) w.reg name)

/-- A run of calls, each allowed by `ok`, after `NR_reg_init`. -/
def LogReaches (env : Option Bytes) (ok : Logging → LogOp → Prop) (evs : List (LogOp × Status)) (w : Logging) : Prop :=
  ∃ w₀, NR_reg_init env = some (.ok, w₀) ∧ Run (logStep env) ok w₀ evs w

end Nrappkit.Log
