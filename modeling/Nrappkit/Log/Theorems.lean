import Nrappkit.Log.Coherence
import Nrappkit.Registry.LocalEvents
/-!
# Coherence of the log levels

The levels are kept up to date by callbacks on single keys, and a callback is
also called for names below its key. `Follows` is what a call has to be for the
levels to follow: no two facilities share a key, no level is lost with an
ancestor of its key or changed by a name below it, and what is stored can be
read.
-/
open Lib Nrappkit.Registry

namespace Nrappkit.Log

/-- The flag under a key. -/
def flagAt (s : Reg) (key : Bytes) : Int :=
  match s.map key with
  | some (some (.scalar (._char c))) => c.toInt
  | _ => 0

/-- The levels are what the keys denote and, where the environment names no
destination, so are the destinations' levels and flags. -/
structure Coherent (env : Option Bytes) (w : Logging) : Prop where
  level : ∀ i < w.log_type_ct, ∀ j < LOG_NUM_DESTINATIONS,
    (w.log_types i).level j = levelAt w.reg (facility_key j (w.log_types i).facility_name)
  default_level : env = none → ∀ j < LOG_NUM_DESTINATIONS,
    (w.log_destinations j).default_level = levelAt w.reg (level_key j)
  enabled : env = none → ∀ j < LOG_NUM_DESTINATIONS,
    (w.log_destinations j).enabled = flagAt w.reg (enabled_key j)

/-! ## When a call is followed -/

/-- The setter does not replace a level by a string that cannot be read, and
below the key it stores no level, or nothing new. -/
def SetFollows (s : Reg) (key name : Bytes) (arg : Arg) : Prop :=
  (name = key → fitsLevel (arg.written none) = false → levelAt s key = LOG_LEVEL_UNDEFINED) ∧
    (Ancestor key name → s.map name ≠ some (some arg.value) → valueLevel (arg.written none) = LOG_LEVEL_UNDEFINED)

/-- The setter does not change what a key of the destinations denotes, or the
key and those before it can be read. -/
def SlotSetFollows (s : Reg) (x : Nat) (name : Bytes) (arg : Arg) : Prop :=
  name = dest_key x → destAt s x = denotes x (arg.written none) ∨
    (fits x (arg.written none) = true ∧ ∀ y < x, Readable s y)

/-- A level is deleted with its key alone, and nothing is deleted below it. -/
def DelFollows (s : Reg) (key name : Bytes) : Prop :=
  key ≠ name → covers name key = true ∨ Ancestor key name → levelAt s key = LOG_LEVEL_UNDEFINED

def SlotDelFollows (s : Reg) (x : Nat) (name : Bytes) : Prop :=
  covers name (dest_key x) = true → destAt s x = unset x ∨ (name = dest_key x ∧ ∀ y < x, Readable s y)

/-- The call leaves the levels up to date. -/
def Follows (env : Option Bytes) (w : Logging) : LogOp → Prop
  | .register f => ∀ i < w.log_type_ct, (w.log_types i).facility_name.map childByte = f.map childByte →
      (w.log_types i).facility_name = f
  | .set name arg =>
    (∀ i < w.log_type_ct, ∀ j < LOG_NUM_DESTINATIONS,
      SetFollows w.reg (facility_key j (w.log_types i).facility_name) name arg) ∧
    (env = none → ∀ x < 6, SlotSetFollows w.reg x name arg)
  | .del name =>
    (∀ i < w.log_type_ct, ∀ j < LOG_NUM_DESTINATIONS,
      DelFollows w.reg (facility_key j (w.log_types i).facility_name) name) ∧
    (env = none → ∀ x < 6, SlotDelFollows w.reg x name)

instance (s : Reg) (x : Nat) : Decidable (Readable s x) :=
  match h : s.map (dest_key x) with
  | some (some v) => decidable_of_iff (fits x v = true) (slot_stored h).1.symm
  | some none => isTrue fun v hv => by rw [h] at hv; cases hv
  | none => isTrue (slot_absent h).1

instance (s : Reg) (key name : Bytes) (arg : Arg) : Decidable (SetFollows s key name arg) :=
  inferInstanceAs (Decidable (_ ∧ _))

instance (s : Reg) (x : Nat) (name : Bytes) (arg : Arg) : Decidable (SlotSetFollows s x name arg) :=
  inferInstanceAs (Decidable (_ → _))

instance (s : Reg) (key name : Bytes) : Decidable (DelFollows s key name) := inferInstanceAs (Decidable (_ → _))

instance (s : Reg) (x : Nat) (name : Bytes) : Decidable (SlotDelFollows s x name) := inferInstanceAs (Decidable (_ → _))

instance (env : Option Bytes) (w : Logging) (op : LogOp) : Decidable (Follows env w op) :=
  match op with
  | .register _ => inferInstanceAs (Decidable (∀ _, _))
  | .set _ _ => inferInstanceAs (Decidable (_ ∧ _))
  | .del _ => inferInstanceAs (Decidable (_ ∧ _))

/-! ## The destinations as slots -/

theorem destAt_level (s : Reg) (j : Nat) : destAt s (2 * j) = levelAt s (level_key j) := by
  have heven : 2 * j % 2 = 0 := Nat.mul_mod_right 2 j
  rw [destAt, levelAt, dest_key, if_pos heven, Nat.mul_div_cancel_left j (by decide), unset, if_pos heven]
  simp only [denotes_level heven]

theorem destAt_flag (s : Reg) (j : Nat) : destAt s (2 * j + 1) = flagAt s (enabled_key j) := by
  have hodd : ¬ (2 * j + 1) % 2 = 0 := by omega
  have hdiv : (2 * j + 1) / 2 = j := by omega
  rw [destAt, flagAt, dest_key, if_neg hodd, hdiv, unset, if_neg hodd]
  cases hm : s.map (enabled_key j) with
  | none => rfl
  | some o =>
    cases o with
    | none => rfl
    | some v =>
      dsimp only
      unfold denotes
      rw [if_neg hodd]
      split
      · rfl
      · split
        · rename_i hne _ _ heq
          cases heq
          exact absurd rfl (hne _)
        · rfl

theorem Coherent.slot {env : Option Bytes} {w : Logging} (h : Coherent env w) (he : env = none) {x : Nat} (hx : x < 6) :
    destValue w x = destAt w.reg x := by
  unfold destValue
  split
  · rw [h.default_level he (x / 2) (by rw [LOG_NUM_DESTINATIONS]; omega), ← destAt_level, show 2 * (x / 2) = x by omega]
  · rw [h.enabled he (x / 2) (by rw [LOG_NUM_DESTINATIONS]; omega), ← destAt_flag, show 2 * (x / 2) + 1 = x by omega]

theorem Coherent.of_slots {env : Option Bytes} {w : Logging}
    (hlevel : ∀ i < w.log_type_ct, ∀ j < LOG_NUM_DESTINATIONS,
      (w.log_types i).level j = levelAt w.reg (facility_key j (w.log_types i).facility_name))
    (hdest : env = none → ∀ x < 6, destValue w x = destAt w.reg x) : Coherent env w where
  level := hlevel
  default_level he j hj := by
    rw [LOG_NUM_DESTINATIONS] at hj
    rw [← destAt_level, ← hdest he (2 * j) (by omega), destValue, if_pos (Nat.mul_mod_right 2 j),
      Nat.mul_div_cancel_left j (by decide)]
  enabled he j hj := by
    rw [LOG_NUM_DESTINATIONS] at hj
    rw [← destAt_flag, ← hdest he (2 * j + 1) (by omega), destValue, if_neg (by omega), show (2 * j + 1) / 2 = j by omega]

/-- The keys of the destinations are not below one another. -/
theorem dest_key_apart {x y : Nat} (hx : x < 6) (hy : y < 6) : ¬ Ancestor (dest_key y) (dest_key x) := by
  have hall : ∀ x < 6, ∀ y < 6, covers (dest_key y) (dest_key x) = true → y = x := by decide
  intro ha
  obtain rfl := hall x hx y hy (covers_iff.2 (.inr (.inr ha)))
  exact absurd ha.length (Nat.lt_irrefl _)

theorem destAt_congr {s s' : Reg} {x : Nat} (h : s'.map (dest_key x) = s.map (dest_key x)) : destAt s' x = destAt s x := by
  unfold destAt
  rw [h]

theorem levelAt_congr {s s' : Reg} {key : Bytes} (h : s'.map key = s.map key) : levelAt s' key = levelAt s key := by
  unfold levelAt
  rw [h]

theorem levelAt_some {s : Reg} {key : Bytes} {v : Value} (h : s.map key = some (some v)) :
    levelAt s key = valueLevel v := by
  rw [levelAt, h]

theorem levelAt_none {s : Reg} {key : Bytes} (h : s.map key = none) : levelAt s key = LOG_LEVEL_UNDEFINED := by
  rw [levelAt, h]

/-! ## Registering -/

theorem register_follows {env : Option Bytes} {w w' : Logging} (h : Wired env w) (hc : Coherent env w) {f : Bytes}
    (hf : Follows env w (.register f)) {o : Option Nat} (hst : r_log_register w f = some (.ok, o, w')) :
    Wired env w' ∧ Coherent env w' := by
  have hspec := r_log_register_spec h.sound h.cbs h.room hst
  rw [if_pos rfl] at hspec
  rcases hspec with rfl | hadd
  · exact ⟨h, hc⟩
  · have hmap : w'.reg.map = w.reg.map := by
      rw [hadd.reg]
      rfl
    refine ⟨h.added hadd fun i hi heq => hadd.fresh i hi (hf i hi heq), .of_slots (fun i hi j hj => ?_) fun he x hx => ?_⟩
    · rw [levelAt_map hmap]
      by_cases hi' : i < w.log_type_ct
      · rw [hadd.level i hi', hadd.name i hi']
        exact hc.level i hi' j hj
      · have hnew : i = w.log_type_ct := by
          rw [hadd.log_type_ct] at hi
          omega
        subst hnew
        rw [hadd.level_new j hj, hadd.name_new]
    · rw [destAt_map hmap, ← hc.slot he hx, destValue, destValue, hadd.log_destinations]

/-! ## Setting -/

/-- What a value of the setter's own denotes does not depend on what was there. -/
theorem written_level (arg : Arg) (old : Option Value) : valueLevel (arg.written old) = valueLevel (arg.written none) ∧
    fitsLevel (arg.written old) = fitsLevel (arg.written none) := by
  cases arg with
  | scalar d =>
    cases old with
    | none => exact ⟨rfl, rfl⟩
    | some v => cases v <;> exact ⟨rfl, rfl⟩
  | registry => exact ⟨rfl, rfl⟩
  | bytes b => exact ⟨rfl, rfl⟩
  | string b => exact ⟨rfl, rfl⟩

theorem written_slot {arg : Arg} {old : Value} (ht : old.type = arg.type) (x : Nat) :
    denotes x (arg.written (some old)) = denotes x (arg.written none) ∧
      fits x (arg.written (some old)) = fits x (arg.written none) := by
  by_cases hx : x % 2 = 0
  · rw [denotes_level hx, denotes_level hx, fits, fits, if_pos hx, if_pos hx]
    exact written_level arg (some old)
  · have hold : ∀ v, some old = some v → v.type = arg.type := by
      rintro v ⟨⟩
      exact ht
    have htype : ∀ o, (∀ v, o = some v → v.type = arg.type) → fits x (arg.written o) = decide (arg.type = .CHAR) := by
      intro o ho
      rw [fits, if_neg hx, written_type ho]
    have hnone : ∀ v, (none : Option Value) = some v → v.type = arg.type := by
      rintro v ⟨⟩
    refine ⟨?_, (htype _ hold).trans (htype _ hnone).symm⟩
    by_cases hchar : arg.type = .CHAR
    · obtain ⟨c, rfl⟩ : ∃ c, arg = .scalar (._char c) := by
        cases arg with
        | scalar d =>
          cases d with
          | _char c => exact ⟨c, rfl⟩
          | _ => cases hchar
        | registry => cases hchar
        | bytes b => cases hchar
        | string b => cases hchar
      have hplain : Arg.Plain (.scalar (._char c)) := by
        show NR_REG_TYPE.CHAR ≠ .DOUBLE
        decide
      rw [(written_eq hplain hold).2 (Nat.two_pow_pos 32), (written_eq hplain hnone).2 (Nat.two_pow_pos 32)]
    · rw [denotes_unfit ((htype _ hold).trans (decide_eq_false hchar)),
        denotes_unfit ((htype _ hnone).trans (decide_eq_false hchar))]

theorem trunc_take (data : Bytes) (length : UInt32) : trunc (data.take length.toNat) = data.take length.toNat :=
  trunc_eq_self.2 (Nat.lt_of_le_of_lt (List.length_take_le ..) length.toNat_lt)

/-- A setter that finds no difference leaves the value. -/
theorem written_same {arg : Arg} {node : Node} (ht : node.type = arg.type) (hd : arg.differs node.value = false) :
    arg.written (some node.value) = node.value := by
  cases arg with
  | scalar d =>
    cases node with
    | scalar v =>
      have hne : v.ne d = false := hd
      show Value.scalar (if v.ne d then d else v) = .scalar v
      rw [hne]
      rfl
    | registry => cases d <;> cases ht
    | array string _ _ => cases d <;> cases string <;> cases ht
  | registry => rw [registry_of_type ht]; rfl
  | bytes b =>
    cases node with
    | scalar v => cases v <;> cases ht
    | registry => cases ht
    | array string length data =>
      cases string with
      | true => cases ht
      | false =>
        obtain rfl : data.take length.toNat = b := by simpa [Arg.differs, Node.value] using hd
        exact congrArg (Value.array false) (trunc_take data length)
  | string b =>
    cases node with
    | scalar v => cases v <;> cases ht
    | registry => cases ht
    | array string length data =>
      cases string with
      | false => cases ht
      | true =>
        have heq : data.take length.toNat = b ++ [0] := by simpa [Arg.differs, Node.value] using hd
        show Value.array true (trunc (b ++ [0])) = Value.array true (data.take length.toNat)
        rw [← heq, trunc_take]

/-- What a setter that returns 0 does: it stores `v`, creates missing ancestors
and raises events for the names it stored, or changes nothing. -/
structure Stores (s : Reg) (name : Bytes) (arg : Arg) (s' : Reg) (new : List (Bytes × UInt8)) (v : Value) : Prop where
  events : s'.events = s.events ++ new
  here : s'.map name = some (some v)
  level : valueLevel v = valueLevel (arg.written none) ∧ fitsLevel v = fitsLevel (arg.written none)
  slot : ∀ x, denotes x v = denotes x (arg.written none) ∧ fits x v = fits x (arg.written none)
  other : ∀ n ≠ name, s'.map n = s.map n ∨ (Ancestor n name ∧ s.map n = none ∧ s'.map n = some (some .registry))
  announces : ∀ e ∈ new, (e.2 = NR_REG_CB_ACTION_ADD ∨ e.2 = NR_REG_CB_ACTION_CHANGE) ∧
    (e.1 = name ∨ s'.map e.1 = some (some .registry))
  changed : new ≠ [] → fitsLevel v = true → s.map name ≠ some (some arg.value)
  unchanged : (∃ a, (name, a) ∈ new) ∨ s'.map = s.map

theorem Stores.overwritten {s s' : Reg} {name : Bytes} {arg : Arg} {node : Node}
    (hm : s.map name = some (some node.value)) (ht : node.type = arg.type)
    (hmap : s'.map = Function.update s.map name (some (some (arg.written (some node.value)))))
    (hev : s'.events = s.events ++ if arg.differs node.value then [(name, NR_REG_CB_ACTION_CHANGE)] else []) :
    Stores s name arg s' (if arg.differs node.value then [(name, NR_REG_CB_ACTION_CHANGE)] else [])
      (arg.written (some node.value)) where
  events := hev
  here := by rw [hmap, Function.update_self]
  level := written_level arg _
  slot := written_slot (by rw [Node.value_type, ht])
  other n hn := .inl (by rw [hmap, Function.update_of_ne hn])
  announces e he := by
    split at he
    · rw [List.mem_singleton.1 he]
      exact ⟨.inr rfl, .inl rfl⟩
    · cases he
  changed hne hfit := by
    rw [hm, ne_eq, Option.some.injEq, Option.some.injEq]
    have hd : arg.differs node.value = true := by
      by_contra hd
      rw [if_neg hd] at hne
      exact hne rfl
    cases arg with
    | scalar d =>
      cases node with
      | scalar v => cases hfit
      | registry => cases d <;> cases ht
      | array string _ _ => cases d <;> cases string <;> cases ht
    | _ => simpa [differs_eq (fun h => by cases h) ht] using hd
  unchanged := by
    cases hd : arg.differs node.value with
    | true => exact .inl ⟨_, List.mem_singleton.2 rfl⟩
    | false => exact .inr (by rw [hmap, written_same ht hd, ← hm, Function.update_eq_self])

theorem Stores.created {s s' : Reg} {name : Bytes} {arg : Arg} (hp : s.ptr name = none)
    (hc : Created s name (arg.written none) s') :
    Stores s name arg s' ((newAncestors s name).reverse.map (·, NR_REG_CB_ACTION_ADD) ++ [(name, NR_REG_CB_ACTION_ADD)])
      (arg.written none) where
  events := by rw [hc.events, List.append_assoc]
  here := by rw [hc.map]; exact if_pos rfl
  level := ⟨rfl, rfl⟩
  slot _ := ⟨rfl, rfl⟩
  other n hn := by
    rw [hc.map]
    by_cases hnew : n ∈ newAncestors s name
    · exact .inr ⟨newAncestors_ancestor hnew, newAncestors_absent_name hnew, by simp [hn, hnew]⟩
    · exact .inl (by simp [hn, hnew])
  announces e he := by
    rcases List.mem_append.1 he with he | he
    · obtain ⟨a, ha, rfl⟩ := List.mem_map.1 he
      refine ⟨.inl rfl, ?_⟩
      by_cases hn : a = name
      · exact .inl hn
      · right
        rw [hc.map]
        simp [hn, List.mem_reverse.1 ha]
    · rw [List.mem_singleton.1 he]
      exact ⟨.inl rfl, .inl rfl⟩
  changed _ _ := by
    rw [map_none.2 hp]
    exact fun h => by cases h
  unchanged := .inl ⟨_, List.mem_append_right _ (List.mem_singleton.2 rfl)⟩

theorem set_stores {s s' : Reg} (h : Sound s) {name : Bytes} {arg : Arg}
    (hst : set (fun _ => 0) s name arg = some (.ok, s')) : ∃ new v, Stores s name arg s' new v := by
  have hsafe : Safe s (.set name arg) := safe_of_ok h.1 hst
  rcases set_cases h.1 hsafe hst with ⟨hne, -⟩ | ⟨p, node, hp, hn, htype, -, -, hmap, hev⟩ | ⟨hp, -, -, -, -, hc⟩
  · exact absurd rfl hne
  · exact ⟨_, _, .overwritten (by simp [Reg.map, hp, hn]) htype hmap hev⟩
  · exact ⟨_, _, .created hp hc⟩

/-- A registry denotes nothing for a destination. -/
theorem destAt_registry {s : Reg} {x : Nat} (h : s.map (dest_key x) = some (some .registry)) : destAt s x = unset x := by
  rw [destAt, h]
  refine denotes_unfit ?_
  unfold fits
  split <;> rfl

/-- The calls leave the levels coherent, if they leave each of them so. -/
theorem Called.coherent {env : Option Bytes} {w w' : Logging} {s : Reg} {cs : List Invocation}
    (h : Called env { w with reg := s } cs w')
    (hlevel : ∀ i < w.log_type_ct, ∀ j < LOG_NUM_DESTINATIONS,
      (w'.log_types i).level j = levelAt s (facility_key j (w.log_types i).facility_name))
    (hdest : env = none → ∀ x < 6, destValue w' x = destAt s x) : Coherent env w' := by
  refine .of_slots (fun i hi j hj => ?_) fun he x hx => ?_
  · rw [levelAt_map h.map, h.name]
    exact hlevel i (h.log_type_ct ▸ hi) j hj
  · rw [destAt_map h.map]
    exact hdest he x hx

/-- A setter leaves the levels as they should be. -/
theorem Stores.level_follows {env : Option Bytes} {w w' : Logging} {s : Reg} {name : Bytes} {arg : Arg}
    {new : List (Bytes × UInt8)} {v : Value} (h : Wired env w) (hc : Coherent env w) (hs : Sound s)
    (hsto : Stores w.reg name arg s new v) (hcalled : Called env { w with reg := s } (raised w new) w') {i j : Nat}
    (hi : i < w.log_type_ct) (hj : j < 3)
    (hf : SetFollows w.reg (facility_key j (w.log_types i).facility_name) name arg) :
    (w'.log_types i).level j = levelAt s (facility_key j (w.log_types i).facility_name) := by
  have hold := hc.level i hi j hj
  refine hcalled.follows h hi hj rfl (fun e he hpath _ u hm hfit => ?_) (fun e he _ ha => ?_) ?_
  · rcases (hsto.announces e he).2 with hname | hreg
    · rw [hname, hsto.here] at hm
      cases hm
      rw [hname] at hpath
      rcases hpath with hpath | hpath
      · rw [hpath, levelAt_some hsto.here]
      · -- the ancestors of the name are registries now
        have hup := hs.2.up name _ (by rw [hsto.here]; simp) hpath
        rw [levelAt_some hup, hsto.level.1]
        exact hf.2 hpath (hsto.changed (List.ne_nil_of_mem he) hfit)
    · rw [hreg] at hm
      cases hm
      cases hfit
  · rcases (hsto.announces e he).1 with ha' | ha' <;> rw [ha'] at ha <;> cases ha
  · by_cases hname : name = facility_key j (w.log_types i).facility_name
    · have hlevel := levelAt_some hsto.here
      rw [hname] at hlevel
      rcases hsto.unchanged with ⟨a, hmem⟩ | hsame
      · by_cases hfit : fitsLevel v = true
        · refine .inr ⟨a, hname ▸ hmem, .inl ⟨(hsto.announces _ hmem).1, v, hname ▸ hsto.here, hfit⟩⟩
        · rw [Bool.not_eq_true] at hfit
          left
          rw [hold, hf.1 hname (by rw [← hsto.level.2, hfit]), hlevel, valueLevel_unfit hfit]
      · exact .inl (by rw [hold, levelAt_map hsame])
    · left
      rw [hold]
      rcases hsto.other _ (Ne.symm hname) with hsame | ⟨-, hnone, hreg⟩
      · exact (levelAt_congr hsame).symm
      · rw [levelAt_none hnone, levelAt_some hreg]
        rfl

/-- A setter leaves the destinations as they should be. -/
theorem Stores.dest_follows {w w' : Logging} {s : Reg} {name : Bytes} {arg : Arg}
    {new : List (Bytes × UInt8)} {v : Value} (h : Wired none w) (hc : Coherent none w)
    (hsto : Stores w.reg name arg s new v) (hcalled : Called none { w with reg := s } (raised w new) w') {x : Nat}
    (hx : x < 6) (hf : SlotSetFollows w.reg x name arg) : destValue w' x = destAt s x := by
  have hold := hc.slot rfl hx
  refine hcalled.dest_follows h hx ?_
  by_cases hname : name = dest_key x
  · have hdest : destAt s x = denotes x v := (slot_stored (hname ▸ hsto.here)).2
    rcases hf hname with hsame | ⟨hfit, hread⟩
    · exact .inl (by rw [hold, hsame, hdest, (hsto.slot x).1])
    · rcases hsto.unchanged with ⟨a, hmem⟩ | hsame
      · refine .inr ⟨⟨a, hname ▸ hmem, ?_⟩, fun y hy => ?_⟩
        · rcases (hsto.announces _ hmem).1 with ha | ha
          · rw [show a = NR_REG_CB_ACTION_ADD from ha]
            decide
          · rw [show a = NR_REG_CB_ACTION_CHANGE from ha]
            decide
        · by_cases hyx : y = x
          · subst hyx
            exact (slot_stored (hname ▸ hsto.here)).1.2 (by rw [(hsto.slot y).2, hfit])
          · have hne : dest_key y ≠ name := fun heq => hyx (dest_key_inj y (by omega) x hx (heq.trans hname))
            rcases hsto.other _ hne with hsame | ⟨ha, -, -⟩
            · intro u hu
              rw [hsame] at hu
              exact hread y (by omega) u hu
            · rw [hname] at ha
              exact absurd ha (dest_key_apart hx (by omega))
      · exact .inl (by rw [hold, destAt_map hsame])
  · left
    rw [hold]
    rcases hsto.other _ (Ne.symm hname) with hsame | ⟨-, hnone, hreg⟩
    · exact (destAt_congr hsame).symm
    · rw [destAt_registry hreg, (slot_absent hnone).2]

theorem set_follows {env : Option Bytes} {w w' : Logging} (h : Wired env w) (hc : Coherent env w) {name : Bytes}
    {arg : Arg} (hf : Follows env w (.set name arg))
    (hst : logStep env w (.set name arg) = some (.ok, w')) : Wired env w' ∧ Coherent env w' := by
  obtain ⟨⟨r, s⟩, hset, hcalls⟩ := Option.bind_eq_some_iff.1 hst
  obtain ⟨w₁, hcalls, heq⟩ := Option.map_eq_some_iff.1 hcalls
  cases heq
  have hs := set_sound h.sound hset
  obtain ⟨new, v, hsto⟩ := set_stores h.sound hset
  have hact : ∀ e ∈ new, e.2 ∈ CB_ACTIONS := fun e he => by
    rcases (hsto.announces e he).1 with ha | ha <;> rw [ha] <;> decide
  have hcalled := announce_spec h hs (set_raises hset) hsto.events hact hcalls
  refine ⟨hcalled.wired, hcalled.coherent (fun i hi j hj => ?_) fun he x hx => ?_⟩
  · exact hsto.level_follows h hc hs hcalled hi hj (hf.1 i hi j hj)
  · subst he
    exact hsto.dest_follows h hc hcalled hx (hf.2 rfl x hx)

/-! ## Deleting -/

section
variable {env : Option Bytes} {w w' : Logging} {s : Reg} {name : Bytes}

/-- A deletion leaves the levels as they should be. -/
theorem del_level_follows (h : Wired env w) (hc : Coherent env w)
    (hmap : s.map = fun m => if name = [] ∧ m = [] then some (some .registry)
      else if covers name m then none else w.reg.map m)
    (hcalled : Called env { w with reg := s }
      (raised w ((name, NR_REG_CB_ACTION_DELETE) :: if name = [] then [([], NR_REG_CB_ACTION_ADD)] else [])) w')
    {i j : Nat} (hi : i < w.log_type_ct) (hj : j < 3)
    (hf : DelFollows w.reg (facility_key j (w.log_types i).facility_name) name) :
    (w'.log_types i).level j = levelAt s (facility_key j (w.log_types i).facility_name) := by
  have hold := hc.level i hi j hj
  have hne := facility_key_ne_nil j (w.log_types i).facility_name
  generalize hk : facility_key j (w.log_types i).facility_name = k at hf hold hne ⊢
  have hgone : covers name k = true → levelAt s k = LOG_LEVEL_UNDEFINED := fun hcov =>
    levelAt_none (by simp [hmap, hne, hcov])
  have hstays : ¬ covers name k = true → levelAt s k = levelAt w.reg k := fun hcov =>
    levelAt_congr (by simp [hmap, hne, hcov])
  refine hcalled.follows h hi hj hk.symm (fun e he hpath ha _ _ _ => ?_) (fun e he hpath _ => ?_) ?_
  · rcases List.mem_cons.1 he with rfl | he
    · rcases ha with ha | ha <;> cases ha
    · split at he
      · -- the root is stored again, and no key is the root
        rw [List.mem_singleton.1 he] at hpath
        rcases hpath with hpath | hpath
        · exact absurd hpath hne
        · exact absurd hpath.length (Nat.not_lt_zero _)
      · cases he
  · rcases List.mem_cons.1 he with rfl | he
    · by_cases hcov : covers name k = true
      · exact hgone hcov
      · rw [hstays hcov]
        rcases hpath with rfl | hpath
        · exact absurd (covers_self _) hcov
        · refine hf ?_ (.inr hpath)
          rintro rfl
          exact absurd hpath.length (Nat.lt_irrefl _)
    · split at he
      · rw [List.mem_singleton.1 he] at hpath
        rcases hpath with hpath | hpath
        · exact absurd hpath hne
        · exact absurd hpath.length (Nat.not_lt_zero _)
      · cases he
  · by_cases hname : k = name
    · exact .inr ⟨NR_REG_CB_ACTION_DELETE, by rw [hname]; exact List.mem_cons_self, .inr rfl⟩
    · left
      rw [hold]
      by_cases hcov : covers name k = true
      · rw [hgone hcov, hf hname (.inl hcov)]
      · exact (hstays hcov).symm

/-- A deletion leaves the destinations as they should be. -/
theorem del_dest_follows (h : Wired none w) (hc : Coherent none w)
    (hmap : s.map = fun m => if name = [] ∧ m = [] then some (some .registry)
      else if covers name m then none else w.reg.map m)
    (hcalled : Called none { w with reg := s }
      (raised w ((name, NR_REG_CB_ACTION_DELETE) :: if name = [] then [([], NR_REG_CB_ACTION_ADD)] else [])) w')
    {x : Nat} (hx : x < 6) (hf : SlotDelFollows w.reg x name) : destValue w' x = destAt s x := by
  have hold := hc.slot rfl hx
  have hne : ∀ y < 6, dest_key y ≠ [] := by decide
  have hgone : ∀ y < 6, covers name (dest_key y) = true → s.map (dest_key y) = none := fun y hy hcov => by
    simp [hmap, hne y hy, hcov]
  have hstays : ∀ y < 6, ¬ covers name (dest_key y) = true → s.map (dest_key y) = w.reg.map (dest_key y) :=
    fun y hy hcov => by simp [hmap, hne y hy, hcov]
  refine hcalled.dest_follows h hx ?_
  by_cases hcov : covers name (dest_key x) = true
  · rcases hf hcov with hsame | ⟨hname, hread⟩
    · exact .inl (by rw [hold, hsame, (slot_absent (hgone x hx hcov)).2])
    · refine .inr ⟨⟨NR_REG_CB_ACTION_DELETE, by rw [hname]; exact List.mem_cons_self, by decide⟩, fun y hy => ?_⟩
      by_cases hcov' : covers name (dest_key y) = true
      · exact (slot_absent (hgone y (by omega) hcov')).1
      · have hyx : y ≠ x := by
          rintro rfl
          exact hcov' hcov
        intro u hu
        rw [hstays y (by omega) hcov'] at hu
        exact hread y (by omega) u hu
  · exact .inl (by rw [hold, destAt_congr (hstays x hx hcov)])

end

theorem del_follows {env : Option Bytes} {w w' : Logging} (h : Wired env w) (hc : Coherent env w) {name : Bytes}
    (hf : Follows env w (.del name)) (hst : logStep env w (.del name) = some (.ok, w')) :
    Wired env w' ∧ Coherent env w' := by
  obtain ⟨⟨r, s⟩, hdel, hcalls⟩ := Option.bind_eq_some_iff.1 hst
  obtain ⟨w₁, hcalls, heq⟩ := Option.map_eq_some_iff.1 hcalls
  cases heq
  have hv : nr_reg_is_valid name = .ok := by
    by_contra hv
    rw [del_bad_name hv] at hdel
    cases hdel
  obtain ⟨-, hinv, hmap, hev⟩ := del_spec h.sound.1 hv hdel
  have hs : Sound s := ⟨hinv, h.sound.2.deleted hmap⟩
  have hact : ∀ e ∈ (name, NR_REG_CB_ACTION_DELETE) :: if name = [] then [([], NR_REG_CB_ACTION_ADD)] else [],
      e.2 ∈ CB_ACTIONS := by
    intro e he
    rcases List.mem_cons.1 he with rfl | he
    · show NR_REG_CB_ACTION_DELETE ∈ CB_ACTIONS
      decide
    · split at he
      · rw [List.mem_singleton.1 he]
        show NR_REG_CB_ACTION_ADD ∈ CB_ACTIONS
        decide
      · cases he
  have hcalled := announce_spec h hs (del_raises hdel) hev hact hcalls
  refine ⟨hcalled.wired, hcalled.coherent (fun i hi j hj => ?_) fun he x hx => ?_⟩
  · exact del_level_follows h hc hmap hcalled hi hj (hf.1 i hi j hj)
  · subst he
    exact del_dest_follows h hc hmap hcalled hx (hf.2 rfl x hx)

/-! ## The start -/

instance (j : Nat) (f : Bytes) : Decidable (Keyed j f) :=
  decidable_of_iff ((NR_reg_make_registry (dest_facilities j) f).toOption.isSome ∧
    (facility_key j f).length < NR_REG_MAX_NR_REGISTRY_LEN) <| by
    refine and_congr_left fun _ => ?_
    cases NR_reg_make_registry (dest_facilities j) f <;> simp [Except.toOption]

/-- The names of the facilities are among those of a list. -/
def Named (w : Logging) (names : List Bytes) : Prop :=
  w.log_type_ct ≤ names.length ∧ ∀ i < w.log_type_ct, (w.log_types i).facility_name ∈ names

/-- Registering one of the facilities of the library. -/
theorem register_static {env : Option Bytes} {w w' : Logging} {names : List Bytes} {f : Bytes} (h : Wired env w)
    (hc : Coherent env w) (hn : Named w names) (hlen : names.length < MAX_LOG_TYPES) (hk : ∀ j < 3, Keyed j f)
    (hf : ∀ g ∈ names, g.map childByte = f.map childByte → g = f) {r : Status} {o : Option Nat}
    (hst : r_log_register w f = some (r, o, w')) : Wired env w' ∧ Coherent env w' ∧ Named w' (names ++ [f]) := by
  have hspec := r_log_register_spec h.sound h.cbs h.room hst
  by_cases hr : r = .ok
  · subst hr
    obtain ⟨hw, hcoh⟩ := register_follows h hc (fun i hi => hf _ (hn.2 i hi)) hst
    refine ⟨hw, hcoh, ?_⟩
    rw [if_pos rfl] at hspec
    rcases hspec with rfl | hadd
    · exact ⟨by have hle := hn.1; simp; omega, fun i hi => List.mem_append_left _ (hn.2 i hi)⟩
    · refine ⟨by have hle := hn.1; have hct := hadd.log_type_ct; simp; omega, fun i hi => ?_⟩
      rw [hadd.log_type_ct] at hi
      by_cases hi' : i < w.log_type_ct
      · rw [hadd.name i hi']
        exact List.mem_append_left _ (hn.2 i hi')
      · rw [show i = w.log_type_ct by omega, hadd.name_new]
        simp
  · rw [if_neg hr] at hspec
    rcases hspec with hfull | ⟨j, hj, hkeyed⟩
    · have hle := hn.1
      omega
    · exact absurd (hk j hj) hkeyed

/-- The registry after `nr_reg_local_init`. -/
theorem local_init {s : Reg} (hi : nr_reg_local_init (fun _ => 0) = some (.ok, s)) :
    Sound s ∧ CInv s.cbs ∧ (∀ n a c, s.cbs.regs n a c = none) ∧ ∀ n ≠ [], s.map n = none := by
  obtain ⟨hinv, hmap, hev⟩ := init_spec hi
  obtain ⟨new, calls, he, hd, -⟩ := set_registry_raises _ _ _ _ _ hi
  have hnew : new = [([], NR_REG_CB_ACTION_ADD)] := by
    rw [hev] at he
    exact he.symm
  have hle : nr_reg_cb_init.nr_registry_callbacks.entries ≤ ([] : List Bytes).length :=
    init_cinv.entries_le fun n a c arg hreg => by rw [init_regs] at hreg; cases hreg
  have hact : ∀ e ∈ new, e.2 ∈ CB_ACTIONS := by
    rw [hnew]
    decide
  have hidle := delivers_idle init_cinv (Nat.lt_of_le_of_lt hle (Nat.two_pow_pos 31)) hact
  rw [show emptyReg.cbs = nr_reg_cb_init from rfl, hidle] at hd
  have hcbs := (Prod.mk.inj (Option.some.inj hd)).1
  have hreach : Reaches (fun _ => 0) Safe [] s := ⟨s, hi, .nil⟩
  rw [← hcbs]
  refine ⟨⟨hinv, hreach.tree⟩, init_cinv, init_regs, fun n hn => ?_⟩
  rw [hmap]
  exact if_neg hn

/-- The destinations are read while no key has a value. -/
theorem destinations_init {env : Option Bytes} {s : Reg} (hi : nr_reg_local_init (fun _ => 0) = some (.ok, s)) {r : Status}
    {w : Logging} (h : r_log_get_destinations env (static s) = some (r, w)) :
    Wired env w ∧ Coherent env w ∧ Named w [] := by
  obtain ⟨hs, hc, hregs, hmap⟩ := local_init hi
  cases env with
  | some log =>
    cases h
    refine ⟨⟨hs, hc, Nat.zero_le _, (fun i hi => by cases hi), fun n a c arg => ?_⟩, ?_, Nat.le_refl 0,
      (fun i hi => by cases hi)⟩
    · show s.cbs.regs n a c = some arg ↔ _
      rw [hregs]
      constructor
      · exact fun h => by cases h
      · rintro (⟨i, hi, -⟩ | ⟨he, -⟩)
        · cases hi
        · cases he
    · exact .of_slots (fun i hi => by cases hi) fun he => by cases he
  | none =>
    have hslots := get_destinations_spec (w := static s) hs hc h
    have hne : ∀ x < 6, dest_key x ≠ [] := by decide
    have hread : ∀ y < 6, Readable s y := fun y hy => (slot_absent (hmap _ (hne y hy))).1
    have hreg : w.reg.map = s.map := by
      rw [hslots.reg]
      rfl
    have hct : w.log_type_ct = 0 := hslots.log_type_ct
    refine ⟨⟨?_, hslots.cbs, by rw [hct]; exact Nat.zero_le _, fun i hi => ?_, fun n a c arg => ?_⟩,
      .of_slots (fun i hi => ?_) fun _ x hx => ?_, by rw [hct]; exact Nat.le_refl 0, fun i hi => ?_⟩
    · rw [hslots.reg]
      exact sound_cbs hs _
    · rw [hct] at hi
      cases hi
    · obtain ⟨m, -, hall, hm⟩ := hslots.regs
      obtain rfl := hm fun y _ hy => hread y (by omega)
      rw [hall]
      refine (setSlots_apply hregs n a c arg).trans ?_
      constructor
      · rintro ⟨x, hx, hrest⟩
        have hmem := List.mem_range'_1.1 hx
        exact .inr ⟨rfl, x, by omega, hrest⟩
      · rintro (⟨i, hi, -⟩ | ⟨-, x, hx, hrest⟩)
        · rw [hct] at hi
          cases hi
        · exact ⟨x, List.mem_range'_1.2 (by omega), hrest⟩
    · rw [hct] at hi
      cases hi
    · rw [destAt_map hreg]
      exact hslots.read x (Nat.zero_le x) (by omega) fun y _ hy => hread y (by omega)
    · rw [hct] at hi
      cases hi

theorem init_coherent {env : Option Bytes} {w : Logging} (h : NR_reg_init env = some (.ok, w)) :
    Wired env w ∧ Coherent env w := by
  unfold NR_reg_init at h
  obtain ⟨⟨r, s⟩, hi, h⟩ := Option.bind_eq_some_iff.1 h
  dsimp only at h
  by_cases hr : r = .ok
  swap
  · rw [if_pos hr] at h
    cases h
    exact absurd rfl hr
  subst hr
  rw [if_neg (not_not.2 rfl)] at h
  obtain ⟨w₃, hinit, h⟩ := Option.bind_eq_some_iff.1 h
  obtain ⟨⟨r₄, o₄, w₄⟩, hregistry, h⟩ := Option.bind_eq_some_iff.1 h
  cases h
  unfold r_log_init at hinit
  obtain ⟨⟨r₁, w₁⟩, hdest, h⟩ := Option.bind_eq_some_iff.1 hinit
  obtain ⟨⟨r₂, o₂, w₂⟩, hgeneric, h⟩ := Option.bind_eq_some_iff.1 h
  obtain ⟨⟨r₃, o₃, w₅⟩, hlogging, h⟩ := Option.bind_eq_some_iff.1 h
  cases h
  obtain ⟨hw₁, hc₁, hn₁⟩ := destinations_init hi hdest
  obtain ⟨hw₂, hc₂, hn₂⟩ := register_static hw₁ hc₁ hn₁ (by decide) (by decide) (by decide) hgeneric
  obtain ⟨hw₃, hc₃, hn₃⟩ := register_static hw₂ hc₂ hn₂ (by decide) (by decide) (by decide) hlogging
  obtain ⟨hw₄, hc₄, -⟩ := register_static hw₃ hc₃ hn₃ (by decide) (by decide) (by decide) hregistry
  exact ⟨hw₄, hc₄⟩

/-! ## Runs -/

theorem step_follows {env : Option Bytes} {w w' : Logging} (h : Wired env w) (hc : Coherent env w) {op : LogOp}
    (hf : Follows env w op) (hst : logStep env w op = some (.ok, w')) : Wired env w' ∧ Coherent env w' := by
  cases op with
  | register f =>
    obtain ⟨⟨r, o, w₁⟩, hreg, heq⟩ := Option.map_eq_some_iff.1 hst
    cases heq
    exact register_follows h hc hf hreg
  | set name arg => exact set_follows h hc hf hst
  | del name => exact del_follows h hc hf hst

/-- After every run of calls that return 0 and each of which is followed, the
levels are what the registry says. -/
theorem levels_follow {env : Option Bytes} {evs : List (LogOp × Status)} {w : Logging}
    (h : LogReaches env (Follows env) evs w) (hok : ∀ e ∈ evs, e.2 = .ok) : Coherent env w := by
  obtain ⟨w₀, hi, hrun⟩ := h
  have hall : Wired env w ∧ Coherent env w := by
    induction hrun with
    | nil => exact init_coherent hi
    | @snoc evs w op r w' _ hf hst ih =>
      obtain rfl : r = .ok := hok (op, r) (by simp)
      obtain ⟨hw, hc⟩ := ih fun e he => hok e (by simp [he])
      exact step_follows hw hc hf hst
  exact hall.2

/-- Run a list of calls after `NR_reg_init`. -/
def logTrace (env : Option Bytes) (ok : Logging → LogOp → Bool) (ops : List LogOp) : Option (List Status × Logging) :=
  (NR_reg_init env).bind fun x => if x.1 = .ok then exec (logStep env) ok x.2 ops else none

theorem logTrace_reaches {env : Option Bytes} {ok : Logging → LogOp → Bool} {ops : List LogOp} {rs : List Status}
    {w : Logging} (h : logTrace env ok ops = some (rs, w)) : LogReaches env (fun w op => ok w op) (ops.zip rs) w := by
  obtain ⟨⟨r, w₀⟩, hi, he⟩ := Option.bind_eq_some_iff.1 h
  split at he
  · rename_i hr
    obtain rfl : r = .ok := hr
    exact ⟨w₀, hi, Run.exec .nil he⟩
  · cases he

/-- A facility, its level set, and deleted again. -/
def appOps (name : Bytes) : List LogOp :=
  [.register (str "app"), .set (str "logging.stderr.facility.app.level") (.string (str "debug")), .del name]

theorem levels_follow_app :
    ∃ evs w, LogReaches none (Follows none) evs w ∧ evs.length = 3 ∧ (∀ e ∈ evs, e.2 = .ok) ∧ Coherent none w := by
  have hex : (logTrace none (fun w op => decide (Follows none w op))
      (appOps (str "logging.stderr.facility.app.level"))).any (fun x => x.1 = [.ok, .ok, .ok]) = true := by
    decide +kernel
  obtain ⟨⟨rs, w⟩, htr, hx⟩ := (Option.any_eq_true _ _).1 hex
  obtain rfl : rs = [.ok, .ok, .ok] := by simpa using hx
  obtain ⟨w₀, hi, hrun⟩ := logTrace_reaches htr
  have hreach : LogReaches none (Follows none) _ w := ⟨w₀, hi, hrun.mono fun _ _ h => of_decide_eq_true h⟩
  exact ⟨_, w, hreach, rfl, by simp [appOps], levels_follow hreach (by simp [appOps])⟩

/-- The level of a facility whose key went with an ancestor stays. -/
theorem level_outlives_subtree :
    ∃ evs w, LogReaches none (fun _ _ => True) evs w ∧
      evs = (appOps (str "logging.stderr.facility.app")).zip [.ok, .ok, .ok] ∧
      w.reg.map (str "logging.stderr.facility.app.level") = none ∧ (w.log_types 3).level 0 = 7 ∧ ¬ Coherent none w := by
  have hex : (logTrace none (fun _ _ => true) (appOps (str "logging.stderr.facility.app"))).any (fun x =>
      x.1 = [.ok, .ok, .ok] && x.2.reg.map (str "logging.stderr.facility.app.level") = none &&
        (x.2.log_types 3).level 0 = 7 && x.2.log_type_ct = 4 &&
          facility_key 0 (x.2.log_types 3).facility_name = str "logging.stderr.facility.app.level") = true := by
    decide +kernel
  obtain ⟨⟨rs, w⟩, htr, hx⟩ := (Option.any_eq_true _ _).1 hex
  simp only [Bool.and_eq_true, decide_eq_true_eq] at hx
  obtain ⟨⟨⟨⟨rfl, hmap⟩, hlevel⟩, hct⟩, hkey⟩ := hx
  obtain ⟨w₀, hi, hrun⟩ := logTrace_reaches htr
  refine ⟨_, w, ⟨w₀, hi, hrun.mono fun _ _ _ => trivial⟩, rfl, hmap, hlevel, fun hc => ?_⟩
  have hlev := hc.level 3 (by rw [hct]; decide) 0 (by decide)
  rw [hlevel, hkey, levelAt_none hmap] at hlev
  cases hlev

end Nrappkit.Log
