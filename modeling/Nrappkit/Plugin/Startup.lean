import Nrappkit.Service.Structs
/-!
# Plugins at startup

`nr_plugin_int.c` and the part of `nr_app_startup` that uses it. Plugins are
entered into a table, the ones linked into the program first and then those
whose files the registry lists; each is initialised when it is entered, and the
hooks of one type are called for all of them in the order of the table.

A hook is a function on the registry and on what else the program keeps. It
does not enter plugins itself.
-/
open Lib Nrappkit.Registry Nrappkit.Assoc Nrappkit.Service

namespace Nrappkit.Plugin

variable {W : Type}

/-- What a hook returns and does. -/
abbrev NR_plugin_hook (W : Type) := Reg × W → Int32 × (Reg × W)

structure NR_plugin_hook_def (W : Type) where
  type : Bytes
  func : NR_plugin_hook W

structure NR_plugin_def (W : Type) where
  hooks : List (NR_plugin_hook_def W)

structure nr_plugin_handle (W : Type) where
  path : Bytes
  info : NR_plugin_def W

/-- A hook that was called, for the plugin at an index. -/
structure HookCall (W : Type) where
  plugin : Nat
  type : Bytes
  func : NR_plugin_hook W

structure Plugins (W : Type) where
  /-- The entries up to `nr_loaded_plugin_ct`. -/
  nr_loaded_plugins : List (nr_plugin_handle W)
  reg : Reg
  world : W
  /-- The calls so far. -/
  calls : List (HookCall W)

def MAX_PLUGINS : Nat := 512

/-! ## The functions -/

def nr_plugin_get_hook (p : nr_plugin_handle W) (type : Bytes) : Except Status (NR_plugin_hook W) :=
  match p.info.hooks.find? fun hook => hook.type = type with
  | some hook => .ok hook.func
  | none => .error .R_NOT_FOUND

/-- Call a hook. -/
def Plugins.call (a : Plugins W) (c : HookCall W) : Plugins W :=
  { a with reg := (c.func (a.reg, a.world)).2.1, world := (c.func (a.reg, a.world)).2.2, calls := a.calls ++ [c] }

/-- The entry behind the last one of the table is written when it is full. -/
def nr_plugin_add (path : Bytes) (info : NR_plugin_def W) (a : Plugins W) : Option (Status × Plugins W) :=
  if a.nr_loaded_plugins.length > MAX_PLUGINS then some (.R_INTERNAL, a)
  else if a.nr_loaded_plugins.length = MAX_PLUGINS then none
  else
    let p : nr_plugin_handle W := { path, info }
    let a := match nr_plugin_get_hook p (str "init") with
      | .ok hook => a.call ⟨a.nr_loaded_plugins.length, str "init", hook⟩
      | .error _ => a
    some (.ok, { a with nr_loaded_plugins := a.nr_loaded_plugins ++ [p] })

def nr_plugin_add_plugins : List (NR_plugin_def W) → Plugins W → Option (Status × Plugins W)
  | [], a => some (.ok, a)
  | info :: rest, a =>
    match nr_plugin_add (str "STATIC") info a with
    | none => none
    | some (.ok, a) => nr_plugin_add_plugins rest a
    | some (r, a) => some (r, a)

section
variable (plugin_def : Bytes → Option (NR_plugin_def W))

/-- `plugin_def` is the symbol that `dlopen` and `dlsym` find for a path. -/
def nr_plugin_load_dso (path : Bytes) (a : Plugins W) : Option (Status × Plugins W) :=
  match plugin_def path with
  | none => some (.R_NOT_FOUND, a)
  | some info => nr_plugin_add path info a

/-- The loop of `nr_plugin_load_dsos`, for `n` numbers from `i` on; `number` has
room for nine digits. -/
def load_dsos_loop (plugins_reg : Bytes) : Nat → Nat → Plugins W → Option (Status × Plugins W)
  | 0, _, a => some (.ok, a)
  | n + 1, i, a =>
    if 10 ^ 9 ≤ i then none
    else match NR_reg_alloc2_string a.reg plugins_reg (numeral 10 i) with
      | none => none
      | some (.error r) => some (r, a)
      | some (.ok path) =>
        match nr_plugin_load_dso plugin_def path a with
        | none => none
        | some (.ok, a) => load_dsos_loop plugins_reg n (i + 1) a
        | some (.R_NOT_FOUND, a) => load_dsos_loop plugins_reg n (i + 1) a
        | some (r, a) => some (r, a)

/-- The four bytes behind `count`, which counting clears as well, are left out. -/
def nr_plugin_load_dsos (pfx : Bytes) (a : Plugins W) : Option (Status × Plugins W) :=
  match NR_reg_make_registry pfx (str "plugins") with
  | .error r => some (r, a)
  | .ok plugins_reg =>
    match nr_reg_local_get_child_count a.reg plugins_reg with
    | none => none
    | some (.error r) => some (r, a)
    | some (.ok count) => load_dsos_loop plugin_def plugins_reg count.toNat 0 a

/-- The hooks of the types, for one plugin; what a hook returns is logged. -/
def execute_types (i : Nat) (p : nr_plugin_handle W) (types : List Bytes) (a : Plugins W) : Plugins W :=
  types.foldl (fun a type => match nr_plugin_get_hook p type with
    | .ok hook => a.call ⟨i, type, hook⟩
    | .error _ => a) a

def nr_plugin_execute_hooks (types : List Bytes) (a : Plugins W) : Status × Plugins W :=
  (.ok, a.nr_loaded_plugins.zipIdx.foldl (fun a p => execute_types p.2 p.1 types a) a)

/-- What `nr_app_startup` does for plugins, with the flags for the two types of
hooks; the stages for the registry, logging and statistics are left out. -/
def nr_app_startup (nr_static_plugins : List (NR_plugin_def W)) (register_logging register_stats : Bool) (a : Plugins W) :
    Option (Status × Plugins W) :=
  match nr_plugin_add_plugins nr_static_plugins a with
  | none => none
  | some (.ok, a) =>
    match nr_plugin_load_dsos plugin_def (str "nr_plugins") a with
    | none => none
    | some (r, a) =>
      if r ≠ .ok ∧ r ≠ .R_NOT_FOUND then some (r, a)
      else
        let a := if register_logging then (nr_plugin_execute_hooks [str "register_logging"] a).2 else a
        let a := if register_stats then (nr_plugin_execute_hooks [str "register_stats"] a).2 else a
        some (.ok, a)
  | some (r, a) => some (r, a)

end

/-! ## What is called -/

/-- The hook of a type of the plugin at an index. -/
def hookCall (type : Bytes) (p : nr_plugin_handle W × Nat) : Option (HookCall W) :=
  (p.1.info.hooks.find? fun hook => hook.type = type).map fun hook => ⟨p.2, type, hook.func⟩

/-- The hooks of a type of plugins that are entered from an index on. -/
def hookCalls (type : Bytes) (i : Nat) (table : List (nr_plugin_handle W)) : List (HookCall W) :=
  (table.zipIdx i).filterMap (hookCall type)

theorem get_hook_cases (p : nr_plugin_handle W) (type : Bytes) (i : Nat) :
    (∃ hook, nr_plugin_get_hook p type = .ok hook ∧ hookCall type (p, i) = some ⟨i, type, hook⟩) ∨
    (nr_plugin_get_hook p type = .error .R_NOT_FOUND ∧ hookCall type (p, i) = none) := by
  unfold nr_plugin_get_hook hookCall
  dsimp only
  split
  · rename_i hook hf
    exact .inl ⟨hook.func, rfl, by rw [hf]; rfl⟩
  · rename_i hf
    exact .inr ⟨rfl, by rw [hf]; rfl⟩

/-- Calls one after another. -/
def Plugins.callAll (a : Plugins W) (cs : List (HookCall W)) : Plugins W := cs.foldl Plugins.call a

section
variable {a : Plugins W} {cs : List (HookCall W)}

@[simp] theorem callAll_nil : a.callAll [] = a := rfl

theorem callAll_append (cs' : List (HookCall W)) : a.callAll (cs ++ cs') = (a.callAll cs).callAll cs' := List.foldl_append

theorem callAll_table : (a.callAll cs).nr_loaded_plugins = a.nr_loaded_plugins := by
  induction cs generalizing a with
  | nil => rfl
  | cons c cs ih =>
    have hih : ((a.call c).callAll cs).nr_loaded_plugins = (a.call c).nr_loaded_plugins := ih
    exact hih

theorem callAll_calls : (a.callAll cs).calls = a.calls ++ cs := by
  induction cs generalizing a with
  | nil => simp
  | cons c cs ih =>
    have hih : ((a.call c).callAll cs).calls = (a.call c).calls ++ cs := ih
    have hone : (a.call c).calls = a.calls ++ [c] := rfl
    show ((a.call c).callAll cs).calls = _
    rw [hih, hone, List.append_assoc, List.singleton_append]

/-- The registry and the rest go from each call to the next. -/
theorem callAll_state : ((a.callAll cs).reg, (a.callAll cs).world) = cs.foldl (fun x c => (c.func x).2) (a.reg, a.world) := by
  induction cs generalizing a with
  | nil => rfl
  | cons c cs ih => exact ih (a := a.call c)

theorem callAll_eq : a.callAll cs = ⟨a.nr_loaded_plugins, (cs.foldl (fun x c => (c.func x).2) (a.reg, a.world)).1,
    (cs.foldl (fun x c => (c.func x).2) (a.reg, a.world)).2, a.calls ++ cs⟩ := by
  have htable : (a.callAll cs).nr_loaded_plugins = a.nr_loaded_plugins := callAll_table
  rw [← callAll_state, ← callAll_calls, ← htable]

/-- Entering plugins and calling hooks do not disturb each other. -/
theorem callAll_enter (table : List (nr_plugin_handle W)) :
    ({ a with nr_loaded_plugins := table }).callAll cs = { a.callAll cs with nr_loaded_plugins := table } := by
  induction cs generalizing a with
  | nil => rfl
  | cons c cs ih => exact ih (a := a.call c)

end

theorem hookCalls_append (type : Bytes) (i : Nat) (l l' : List (nr_plugin_handle W)) :
    hookCalls type i (l ++ l') = hookCalls type i l ++ hookCalls type (i + l.length) l' := by
  simp [hookCalls, List.zipIdx_append]

/-- Plugins are entered: initialised one after another. -/
def Plugins.enter (a : Plugins W) (l : List (nr_plugin_handle W)) : Plugins W :=
  { a.callAll (hookCalls (str "init") a.nr_loaded_plugins.length l) with nr_loaded_plugins := a.nr_loaded_plugins ++ l }

section
variable {a : Plugins W}

theorem enter_eq (l : List (nr_plugin_handle W)) : a.enter l =
    { a with nr_loaded_plugins := a.nr_loaded_plugins ++ l }.callAll (hookCalls (str "init") a.nr_loaded_plugins.length l) :=
  (callAll_enter _).symm

theorem enter_nil : a.enter [] = a := by simp [Plugins.enter, hookCalls]

theorem enter_append (l l' : List (nr_plugin_handle W)) : (a.enter l).enter l' = a.enter (l ++ l') := by
  unfold Plugins.enter
  dsimp only
  rw [callAll_enter, List.length_append, hookCalls_append, callAll_append, List.append_assoc]

theorem add_eq (h : a.nr_loaded_plugins.length ≤ MAX_PLUGINS) (path : Bytes) (info : NR_plugin_def W) :
    nr_plugin_add path info a =
      if a.nr_loaded_plugins.length < MAX_PLUGINS then some (.ok, a.enter [⟨path, info⟩]) else none := by
  rw [nr_plugin_add, if_neg (Nat.not_lt.2 h)]
  by_cases hlt : a.nr_loaded_plugins.length < MAX_PLUGINS
  · rw [if_neg hlt.ne, if_pos hlt]
    unfold Plugins.enter hookCalls
    rcases get_hook_cases ⟨path, info⟩ (str "init") a.nr_loaded_plugins.length with ⟨hook, hget, hcall⟩ | ⟨hget, hcall⟩
    · simp [hget, hcall, Plugins.callAll, Plugins.call]
    · simp [hget, hcall]
  · rw [if_pos (Nat.le_antisymm h (Nat.not_lt.1 hlt)), if_neg hlt]

theorem enter_length (l : List (nr_plugin_handle W)) :
    (a.enter l).nr_loaded_plugins.length = a.nr_loaded_plugins.length + l.length := List.length_append

theorem add_plugins_eq {infos : List (NR_plugin_def W)} (h : a.nr_loaded_plugins.length ≤ MAX_PLUGINS) :
    nr_plugin_add_plugins infos a = if a.nr_loaded_plugins.length + infos.length ≤ MAX_PLUGINS
      then some (.ok, a.enter (infos.map fun info => ⟨str "STATIC", info⟩)) else none := by
  induction infos generalizing a with
  | nil => rw [nr_plugin_add_plugins, List.length_nil, Nat.add_zero, if_pos h, List.map_nil, enter_nil]
  | cons info infos ih =>
    rw [nr_plugin_add_plugins, add_eq h, List.length_cons]
    by_cases hlt : a.nr_loaded_plugins.length < MAX_PLUGINS
    · have hlen := enter_length (a := a) [⟨str "STATIC", info⟩]
      rw [List.length_singleton] at hlen
      rw [if_pos hlt]
      dsimp only
      rw [ih (by omega), hlen, enter_append, Nat.add_assoc, Nat.add_comm 1]
      rfl
    · rw [if_neg hlt, if_neg (by omega)]

theorem execute_types_eq (i : Nat) (p : nr_plugin_handle W) (types : List Bytes) :
    execute_types i p types a = a.callAll (types.filterMap fun type => hookCall type (p, i)) := by
  induction types generalizing a with
  | nil => rfl
  | cons type types ih =>
    have hih : ∀ a : Plugins W, types.foldl (fun a type => match nr_plugin_get_hook p type with
        | .ok hook => a.call ⟨i, type, hook⟩
        | .error _ => a) a = a.callAll (types.filterMap fun type => hookCall type (p, i)) := fun a => ih (a := a)
    rw [execute_types, List.foldl_cons, hih, List.filterMap_cons]
    rcases get_hook_cases p type i with ⟨hook, hget, hcall⟩ | ⟨hget, hcall⟩
    · rw [hget, hcall]
      rfl
    · rw [hget, hcall]

/-- The hooks of all plugins, in the order of the table and for each in the
order of the types. -/
theorem execute_hooks_eq (types : List Bytes) : nr_plugin_execute_hooks types a =
    (.ok, a.callAll (a.nr_loaded_plugins.zipIdx.flatMap fun p => types.filterMap fun type => hookCall type p)) := by
  have hall : ∀ (l : List (nr_plugin_handle W × Nat)) (a : Plugins W), l.foldl (fun a p => execute_types p.2 p.1 types a) a =
      a.callAll (l.flatMap fun p => types.filterMap fun type => hookCall type p) := by
    intro l
    induction l with
    | nil => exact fun _ => rfl
    | cons p l ih =>
      intro a
      rw [List.foldl_cons, ih, execute_types_eq, List.flatMap_cons, callAll_append]
  rw [nr_plugin_execute_hooks, hall]

theorem execute_hooks_one (type : Bytes) :
    (nr_plugin_execute_hooks [type] a).2 = a.callAll (hookCalls type 0 a.nr_loaded_plugins) := by
  rw [execute_hooks_eq]
  dsimp only
  congr 1
  unfold hookCalls
  induction a.nr_loaded_plugins.zipIdx with
  | nil => rfl
  | cons p l ih =>
    rw [List.flatMap_cons, ih, List.filterMap_cons, List.filterMap_cons, List.filterMap_nil]
    cases hookCall type p <;> rfl

end

/-! ## The list in the registry -/

section
variable {beh : nr_reg_cb_info → UInt8} {s s' : Reg} {registry : Bytes} {paths : List Bytes}

open Classical in
/-- Store a path that is a string. -/
noncomputable def set_path (beh : nr_reg_cb_info → UInt8) (s : Reg) (name path : Bytes) : Option (Status × Reg) :=
  if Storable (.string path) then nr_reg_local_set_string beh s name path else none

theorem set_path_some {name path : Bytes} {r : Status} (h : set_path beh s name path = some (r, s')) :
    Storable (.string path) ∧ Registry.set beh s name (.string path) = some (r, s') := by
  unfold set_path at h
  split at h
  · exact ⟨‹_›, h⟩
  · cases h

theorem path_inverse (beh : nr_reg_cb_info → UInt8) : Inverse (set_path beh) NR_reg_alloc_string where
  inv h hst := (set_ok_frame h (set_path_some hst).2).1
  stores := by
    intro s s' name path h hempty hst
    obtain ⟨hpath, hst⟩ := set_path_some hst
    obtain ⟨hinv, hc⟩ := set_ok_created h (hempty name (covers_self name)) hst
    have hlen : (path ++ [0]).length < 2 ^ 32 := by simpa using hpath.2
    have hmap : s'.map name = some (some (.array true (path ++ [0]))) := by
      simp [hc.map, Arg.written, trunc_eq_self.2 hlen]
    exact ⟨by simp [hmap], alloc_string_stored hinv hpath.1 hmap⟩
  parent := by
    intro s s' name path p h hempty hst hp
    obtain ⟨-, hc⟩ := set_ok_created h (hempty name (covers_self name)) (set_path_some hst).2
    have hne : p ≠ name := fun he => Nat.lt_irrefl _ (he ▸ beforeLastDot_length hp)
    rw [hc.map]
    cases hptr : s.ptr p with
    | none => simp [newAncestors_absent hp hptr, hne, map_none.2 hptr]
    | some q => simp [newAncestors_stored hp hptr, hne, Reg.map, hptr]
  frame := by
    intro s s' name path n h hst hcov hanc
    refine (set_ok_frame h (set_path_some hst).2).2 n ?_ hanc
    rintro rfl
    rw [covers_self] at hcov
    cases hcov
  local_get h h' hmap := alloc_string_congr h h' (hmap _ (covers_self _))

/-- The hook leaves what is at a name and below it alone. -/
structure Spares (registry : Bytes) (hook : NR_plugin_hook W) : Prop where
  inv : ∀ x, RInv x.1 → RInv (hook x).2.1
  map : ∀ x n, RInv x.1 → covers registry n = true → (hook x).2.1.map n = x.1.map n

theorem spared_list (h : HoldsList NR_reg_alloc_string registry s paths) (h' : RInv s')
    (hmap : ∀ n, covers registry n = true → s'.map n = s.map n) : HoldsList NR_reg_alloc_string registry s' paths := by
  have hentry : ∀ i, covers registry (entryName registry i) = true := fun i =>
    covers_iff.2 (.inr (.inr ((ancestor_iff entryName_parent).2 (.inl rfl))))
  refine ⟨h', fun i hi => ?_, fun n hanc hne => ?_, ?_⟩
  · rw [hmap _ (hentry i), alloc_string_congr h.inv h' (hmap _ (hentry i))]
    exact h.entry i hi
  · rw [hmap n (covers_iff.2 (.inr (.inr hanc)))] at hne
    exact h.only n hanc hne
  · rw [hmap registry (covers_self registry)]
    exact h.node

theorem callAll_spared {a : Plugins W} {cs : List (HookCall W)} (h : RInv a.reg) (hcs : ∀ c ∈ cs, Spares registry c.func) :
    RInv (a.callAll cs).reg ∧ ∀ n, covers registry n = true → (a.callAll cs).reg.map n = a.reg.map n := by
  induction cs generalizing a with
  | nil => exact ⟨h, fun _ _ => rfl⟩
  | cons c cs ih =>
    have hc := hcs c List.mem_cons_self
    have h₁ : RInv (a.call c).reg := hc.inv _ h
    obtain ⟨hinv, hmap⟩ := ih h₁ fun c hc => hcs c (List.mem_cons_of_mem _ hc)
    exact ⟨hinv, fun n hn => (hmap n hn).trans (hc.map _ n h hn)⟩

/-- The plugin's own initialisation leaves the list alone. -/
def InitSpares (registry : Bytes) (info : NR_plugin_def W) : Prop :=
  ∀ hook ∈ info.hooks, hook.type = str "init" → Spares registry hook.func

theorem enter_spared {a : Plugins W} {l : List (nr_plugin_handle W)} (h : RInv a.reg)
    (hl : ∀ p ∈ l, InitSpares registry p.info) :
    RInv (a.enter l).reg ∧ ∀ n, covers registry n = true → (a.enter l).reg.map n = a.reg.map n := by
  refine callAll_spared h fun c hc => ?_
  obtain ⟨⟨p, i⟩, hp, hcall⟩ := List.mem_filterMap.1 hc
  obtain ⟨hook, hf, rfl⟩ := Option.map_eq_some_iff.1 hcall
  have htype : hook.type = str "init" := by simpa using List.find?_some hf
  exact hl p (List.fst_mem_of_mem_zipIdx hp) hook (List.mem_of_find?_eq_some hf) htype

/-! ## The files of the list -/

/-- The plugins whose files can be loaded. -/
def loadable (plugin_def : Bytes → Option (NR_plugin_def W)) (paths : List Bytes) : List (nr_plugin_handle W) :=
  paths.filterMap fun path => (plugin_def path).map fun info => ⟨path, info⟩

variable {plugin_def : Bytes → Option (NR_plugin_def W)}

/-- The name made for a number is that of the entry. -/
theorem alloc2_entry (h : HoldsList NR_reg_alloc_string registry s paths) (hne : registry ≠ [])
    (hv : nr_reg_is_valid registry = .ok) {i : Nat} (hi : i < paths.length) :
    NR_reg_alloc2_string s registry (numeral 10 i) = some (.ok paths[i]) := by
  obtain ⟨hstored, hget⟩ := h.entry i hi
  have hlen := (is_valid_iff.1 (valid_of_stored h.inv hstored)).1
  have hlength : (entryName registry i).length = registry.length + (numeral 10 i).length + 1 := by
    simp [entryName]
    omega
  rw [hlength] at hlen
  have hmake : NR_reg_make_registry registry (numeral 10 i) = .ok (entryName registry i) := make_numeral hne hv (by omega)
  rw [NR_reg_alloc2_string, NRGET2, hmake]
  exact hget

/-- The loop loads the files that can be loaded, in the order of the list. -/
theorem load_dsos_loop_eq {a : Plugins W} (h : HoldsList NR_reg_alloc_string registry a.reg paths) (hne : registry ≠ [])
    (hv : nr_reg_is_valid registry = .ok) (hspares : ∀ path ∈ paths, ∀ info, plugin_def path = some info → InitSpares registry info)
    (hcount : paths.length ≤ 10 ^ 9) {n i : Nat} (hn : i + n = paths.length)
    (hroom : a.nr_loaded_plugins.length ≤ MAX_PLUGINS) :
    load_dsos_loop plugin_def registry n i a =
      if a.nr_loaded_plugins.length + (loadable plugin_def (paths.drop i)).length ≤ MAX_PLUGINS
      then some (.ok, a.enter (loadable plugin_def (paths.drop i))) else none := by
  induction n generalizing a i with
  | zero =>
    rw [load_dsos_loop, List.drop_eq_nil_of_le (by omega), loadable, List.filterMap_nil, enter_nil, List.length_nil,
      Nat.add_zero, if_pos hroom]
  | succ n ih =>
    have hi : i < paths.length := by omega
    rw [List.drop_eq_getElem_cons hi, load_dsos_loop, if_neg (by omega), alloc2_entry h hne hv hi]
    dsimp only
    rw [nr_plugin_load_dso]
    cases hdef : plugin_def paths[i] with
    | none =>
      have hskip : loadable plugin_def (paths[i] :: paths.drop (i + 1)) = loadable plugin_def (paths.drop (i + 1)) :=
        List.filterMap_cons_none (by rw [hdef]; rfl)
      rw [hskip]
      exact ih h (by omega) hroom
    | some info =>
      have hload : loadable plugin_def (paths[i] :: paths.drop (i + 1)) =
          ⟨paths[i], info⟩ :: loadable plugin_def (paths.drop (i + 1)) :=
        List.filterMap_cons_some (by rw [hdef]; rfl)
      rw [hload, List.length_cons]
      dsimp only
      rw [add_eq hroom]
      by_cases hlt : a.nr_loaded_plugins.length < MAX_PLUGINS
      · have hone : ∀ p ∈ [(⟨paths[i], info⟩ : nr_plugin_handle W)], InitSpares registry p.info := by
          intro p hp
          obtain rfl := List.mem_singleton.1 hp
          exact hspares _ (List.getElem_mem hi) _ hdef
        obtain ⟨hinv, hmap⟩ := enter_spared h.inv hone
        have hlen := enter_length (a := a) [⟨paths[i], info⟩]
        rw [List.length_singleton] at hlen
        rw [if_pos hlt]
        dsimp only
        rw [ih (spared_list h hinv hmap) (by omega) (by omega), hlen, enter_append, Nat.add_assoc, Nat.add_comm 1]
        rfl
      · rw [if_neg hlt, if_neg (by omega)]

/-- A list of paths that was written whole. -/
theorem paths_stored {ok : Reg → RegOp → Prop} {evs : List (RegOp × Status)} (hrun : Reaches beh ok evs s) {parent child : Bytes}
    (hmake : nr_c2ru_make_registry parent child = .ok registry) (hpaths : ∀ path ∈ paths, Storable (.string path))
    (hst : nr_c2ru_set_children beh (nr_reg_local_set_string beh) none s parent child paths = some (.ok, s')) :
    HoldsList NR_reg_alloc_string registry s' paths ∧ paths.length < 2 ^ 31 := by
  obtain ⟨hne, hv⟩ := make_registry_valid hmake
  have hentries : ∀ (l : List Bytes) (s : Reg) (i : Nat), (∀ path ∈ l, Storable (.string path)) →
      set_entries (nr_reg_local_set_string beh) none registry s i l = set_entries (set_path beh) none registry s i l := by
    intro l
    induction l with
    | nil => exact fun _ _ _ => rfl
    | cons path l ih =>
      intro s i hl
      have hone : ∀ s name, set_path beh s name path = nr_reg_local_set_string beh s name path := fun _ _ =>
        if_pos (hl path List.mem_cons_self)
      have hrest := fun s => ih s (i + 1) fun p hp => hl p (List.mem_cons_of_mem _ hp)
      simp only [set_entries, hone, hrest]
  rw [nr_c2ru_set_children, hmake] at hst
  dsimp only at hst
  cases hdel : nr_reg_local_del beh s registry with
  | none =>
    rw [hdel] at hst
    cases hst
  | some x =>
    obtain ⟨r, s₁⟩ := x
    rw [hdel] at hst
    dsimp only at hst
    rw [hentries paths s₁ 0 hpaths] at hst
    obtain ⟨-, hinv, hmap, -⟩ := del_spec hrun.rinv hv hdel
    have hgone : ∀ n, covers registry n = true → s₁.map n = none := by
      intro n hn
      rw [hmap]
      dsimp only
      rw [if_neg fun hroot => hne hroot.1, if_pos hn]
    have hempty : HoldsList NR_reg_alloc_string registry s₁ [] := by
      refine ⟨hinv, fun i hlt => absurd hlt (Nat.not_lt_zero i), fun n hanc hst => ?_, hgone _ (covers_self _)⟩
      exact absurd (hgone n (covers_iff.2 (.inr (.inr hanc)))) hst
    exact set_entries_holds (path_inverse beh) hne hempty (Nat.two_pow_pos 31) hst

theorem load_dsos_eq {a : Plugins W} {pfx : Bytes} (hmake : NR_reg_make_registry pfx (str "plugins") = .ok registry)
    (h : HoldsList NR_reg_alloc_string registry a.reg paths) (hlen : paths.length < 2 ^ 31)
    (hspares : ∀ path ∈ paths, ∀ info, plugin_def path = some info → InitSpares registry info)
    (hcount : paths.length ≤ 10 ^ 9) (hroom : a.nr_loaded_plugins.length ≤ MAX_PLUGINS) :
    nr_plugin_load_dsos plugin_def pfx a =
      if a.nr_loaded_plugins.length + (loadable plugin_def paths).length ≤ MAX_PLUGINS
      then some (if paths = [] then .R_NOT_FOUND else .ok, a.enter (loadable plugin_def paths)) else none := by
  obtain ⟨hne, hv⟩ := make_registry_valid hmake
  rw [nr_plugin_load_dsos, hmake]
  dsimp only
  by_cases hnil : paths = []
  · subst hnil
    have hcountnone : nr_reg_local_get_child_count a.reg registry = some (.error .R_NOT_FOUND) := by
      unfold nr_reg_local_get_child_count
      rw [h.inv.fetch_node hv, map_none.1 h.node]
    rw [hcountnone, loadable, List.filterMap_nil, List.length_nil, Nat.add_zero, if_pos hroom, if_pos rfl, enter_nil]
  · have hofNat : (UInt32.ofNat paths.length).toNat = paths.length :=
      UInt32.toNat_ofNat_of_lt' (Nat.lt_trans hlen (by decide))
    rw [(h.children hne hv hnil).1]
    dsimp only
    rw [hofNat, load_dsos_loop_eq h hne hv hspares hcount (Nat.zero_add _) hroom, List.drop_zero, if_neg hnil]

/-! ## The whole startup -/

/-- The plugins that are entered: those linked in, then those of the list whose
files can be loaded. -/
def startupTable (plugin_def : Bytes → Option (NR_plugin_def W)) (nr_static_plugins : List (NR_plugin_def W))
    (paths : List Bytes) : List (nr_plugin_handle W) :=
  nr_static_plugins.map (fun info => ⟨str "STATIC", info⟩) ++ loadable plugin_def paths

/-- The hooks that are called for them. -/
def startupCalls (register_logging register_stats : Bool) (table : List (nr_plugin_handle W)) : List (HookCall W) :=
  hookCalls (str "init") 0 table ++ ((if register_logging then hookCalls (str "register_logging") 0 table else []) ++
    (if register_stats then hookCalls (str "register_stats") 0 table else []))

variable {nr_static_plugins : List (NR_plugin_def W)} {register_logging register_stats : Bool}

/-- Hooks of a type that are asked for, or not. -/
theorem execute_asked (asked : Bool) (type : Bytes) (a : Plugins W) :
    (if asked then (nr_plugin_execute_hooks [type] a).2 else a) =
      a.callAll (if asked then hookCalls type 0 a.nr_loaded_plugins else []) := by
  cases asked with
  | true => exact execute_hooks_one type
  | false => rfl

/-- Startup of a program whose list of plugins was written whole. All plugins
are initialised in the order of the table, and only then are the hooks of the
two types called. The table holds 512; the program is not defined when there are
more. -/
theorem startup_loads_in_order {ok : Reg → RegOp → Prop} {evs : List (RegOp × Status)} (hrun : Reaches beh ok evs s)
    (hst : nr_c2ru_set_children beh (nr_reg_local_set_string beh) none s (str "nr_plugins") (str "plugins") paths = some (.ok, s'))
    (hpaths : ∀ path ∈ paths, Storable (.string path)) (hcount : paths.length ≤ 10 ^ 9)
    (hspares : ∀ p ∈ startupTable plugin_def nr_static_plugins paths, InitSpares (str "nr_plugins.plugins") p.info) (world : W) :
    nr_app_startup plugin_def nr_static_plugins register_logging register_stats ⟨[], s', world, []⟩ =
      let table := startupTable plugin_def nr_static_plugins paths
      let calls := startupCalls register_logging register_stats table
      let state := calls.foldl (fun x c => (c.func x).2) (s', world)
      if table.length ≤ MAX_PLUGINS then some (.ok, ⟨table, state.1, state.2, calls⟩) else none := by
  have hmake : nr_c2ru_make_registry (str "nr_plugins") (str "plugins") = .ok (str "nr_plugins.plugins") := rfl
  have hname : NR_reg_make_registry (str "nr_plugins") (str "plugins") = .ok (str "nr_plugins.plugins") := rfl
  obtain ⟨hlist, hlen⟩ := paths_stored hrun hmake hpaths hst
  have hstatic : ∀ p ∈ nr_static_plugins.map (fun info => (⟨str "STATIC", info⟩ : nr_plugin_handle W)),
      InitSpares (str "nr_plugins.plugins") p.info := fun p hp => hspares p (List.mem_append_left _ hp)
  have hfile : ∀ path ∈ paths, ∀ info, plugin_def path = some info → InitSpares (str "nr_plugins.plugins") info := by
    intro path hpath info hdef
    have hmem : (⟨path, info⟩ : nr_plugin_handle W) ∈ loadable plugin_def paths :=
      List.mem_filterMap.2 ⟨path, hpath, by rw [hdef]; rfl⟩
    exact hspares _ (List.mem_append_right _ hmem)
  dsimp only
  rw [startupTable, List.length_append, List.length_map, nr_app_startup, add_plugins_eq (Nat.zero_le _)]
  rw [List.length_nil, Nat.zero_add]
  by_cases hfit : nr_static_plugins.length ≤ MAX_PLUGINS
  · have hentered := enter_length (a := ⟨[], s', world, []⟩)
      (nr_static_plugins.map fun info => (⟨str "STATIC", info⟩ : nr_plugin_handle W))
    rw [List.length_nil, Nat.zero_add, List.length_map] at hentered
    obtain ⟨hinv, hmap⟩ := enter_spared (a := ⟨[], s', world, []⟩) hlist.inv hstatic
    have hload := load_dsos_eq hname (spared_list hlist hinv hmap) hlen hfile hcount (by rw [hentered]; exact hfit)
    rw [hentered] at hload
    rw [if_pos hfit]
    dsimp only
    rw [hload]
    by_cases hall : nr_static_plugins.length + (loadable plugin_def paths).length ≤ MAX_PLUGINS
    · rw [if_pos hall, if_pos hall]
      have hstatus : ¬ ((if paths = [] then Status.R_NOT_FOUND else .ok) ≠ .ok ∧
          (if paths = [] then Status.R_NOT_FOUND else .ok) ≠ .R_NOT_FOUND) := by split <;> simp
      dsimp only
      rw [if_neg hstatus, execute_asked, execute_asked, enter_append, enter_eq, callAll_table, callAll_table, callAll_table,
        ← callAll_append, ← callAll_append, callAll_eq]
      rfl
    · rw [if_neg hall, if_neg hall]
  · rw [if_neg hfit, if_neg (by omega)]

end

/-- A plugin that counts up when it is initialised, and when it is asked for its
statistics. -/
def counter : NR_plugin_def Nat where
  hooks := [⟨str "init", fun x => (0, x.1, x.2 + 1)⟩, ⟨str "register_stats", fun x => (0, x.1, x.2 + 10)⟩]

theorem counter_spares (registry : Bytes) : InitSpares registry counter := by
  intro hook hmem hinit
  rcases List.mem_cons.1 hmem with rfl | hmem
  · exact ⟨fun _ h => h, fun _ _ _ _ => rfl⟩
  · obtain rfl := List.mem_singleton.1 hmem
    exact absurd hinit (by decide)

/-- One plugin linked in and one of two files: the first file is not found. -/
theorem startup_loads_in_order_second : ∃ evs s s' a, Reaches idle Safe evs s ∧
    nr_c2ru_set_children idle (nr_reg_local_set_string idle) none s (str "nr_plugins") (str "plugins") [str "x.so", str "y.so"] =
      some (.ok, s') ∧
    nr_app_startup (fun path => if path = str "y.so" then some counter else none) [counter] false true ⟨[], s', 0, []⟩ =
      some (.ok, a) ∧
    a.nr_loaded_plugins.map (·.path) = [str "STATIC", str "y.so"] ∧ a.world = 22 ∧
    a.calls.map (fun c => (c.plugin, c.type)) =
      [(0, str "init"), (1, str "init"), (0, str "register_stats"), (1, str "register_stats")] := by
  have hex : (trace idle (fun s op => decide (Safe s op)) [.set (str "a") (.string (str "b"))]).any (fun x =>
      (nr_c2ru_set_children idle (nr_reg_local_set_string idle) none x.2 (str "nr_plugins") (str "plugins")
        [str "x.so", str "y.so"]).any fun y => y.1 = .ok) = true := by decide +kernel
  obtain ⟨⟨rs, s⟩, htr, hx⟩ := (Option.any_eq_true _ _).1 hex
  obtain ⟨⟨r, s'⟩, hst, hr⟩ := (Option.any_eq_true _ _).1 hx
  obtain rfl : r = .ok := of_decide_eq_true hr
  have hreach : Reaches idle Safe _ s := (trace_reaches htr).mono fun _ _ hs => of_decide_eq_true hs
  have hpaths : ∀ path ∈ [str "x.so", str "y.so"], Storable (.string path) := by
    intro path hpath
    rcases List.mem_cons.1 hpath with rfl | hpath
    · exact ⟨by decide, by decide⟩
    · obtain rfl := List.mem_singleton.1 hpath
      exact ⟨by decide, by decide⟩
  have hspares : ∀ p ∈ startupTable (fun path => if path = str "y.so" then some counter else none) [counter]
      [str "x.so", str "y.so"], InitSpares (str "nr_plugins.plugins") p.info := by
    intro p hp
    have htable : startupTable (fun path => if path = str "y.so" then some counter else none) [counter]
      [str "x.so", str "y.so"] = [⟨str "STATIC", counter⟩, ⟨str "y.so", counter⟩] := rfl
    rw [htable] at hp
    rcases List.mem_cons.1 hp with rfl | hp
    · exact counter_spares _
    · obtain rfl := List.mem_singleton.1 hp
      exact counter_spares _
  refine ⟨_, s, s', _, hreach, hst, startup_loads_in_order hreach hst hpaths (by decide) hspares 0, ?_⟩
  exact ⟨rfl, rfl, rfl⟩

end Nrappkit.Plugin
