import Nrappkit.Log.Facilities
/-!
# The levels follow the registry

What a callback writes, what the calls of an event list write together, and
when a step of the registry leaves every level equal to what its key denotes.
-/
open Lib Nrappkit.Registry Nrappkit.Assoc

namespace Nrappkit.Log

/-! ## Addresses of levels -/

theorem levelIndex_eq {i j : Nat} (hi : i ≤ MAX_LOG_TYPES) (hj : j < 3) (arg : UInt64) :
    levelIndex arg = (i, j) ↔ arg = level_ptr i j := by
  have hn : (UInt64.ofNat (i * 3 + j)).toNat = i * 3 + j := by
    rw [UInt64.toNat_ofNat', Nat.mod_eq_of_lt]
    rw [MAX_LOG_TYPES] at hi
    omega
  unfold levelIndex level_ptr LOG_NUM_DESTINATIONS
  rw [Prod.mk.injEq]
  constructor
  · rintro ⟨hdiv, hmod⟩
    rw [← UInt64.toNat_inj, hn]
    omega
  · rintro rfl
    rw [hn]
    omega

theorem level_ptr_inj {i j k l : Nat} (hi : i ≤ MAX_LOG_TYPES) (hk : k ≤ MAX_LOG_TYPES) (hj : j < 3) (hl : l < 3)
    (h : level_ptr i j = level_ptr k l) : i = k ∧ j = l := by
  have h₁ := (levelIndex_eq hi hj (level_ptr i j)).2 rfl
  rw [(levelIndex_eq hk hl _).2 h] at h₁
  exact ⟨(Prod.mk.inj h₁).1.symm, (Prod.mk.inj h₁).2.symm⟩

/-! ## One call -/

/-- What a call writes to a level. -/
def writes (s : Reg) (i j : Nat) (c : Invocation) : Option Int :=
  if c.cb_arg ≠ level_ptr i j then none
  else if c.cb = facility_change_ptr then
    match s.map c.name with
    | some (some v) => if fitsLevel v then some (valueLevel v) else none
    | _ => none
  else if c.cb = facility_delete_ptr then some LOG_LEVEL_UNDEFINED
  else none

/-- The call reads the destinations. -/
def Refreshes (c : Invocation) : Prop := c.cb = default_level_change_ptr ∨ c.cb = destination_change_ptr

/-- What calls do: the registry and the names stay, a level that has its target
or is written keeps or gets it when nothing else is written, and a destination's
value that is up to date or read is up to date. -/
structure Called (env : Option Bytes) (w : Logging) (cs : List Invocation) (w' : Logging) : Prop where
  wired : Wired env w'
  map : w'.reg.map = w.reg.map
  log_type_ct : w'.log_type_ct = w.log_type_ct
  name : ∀ k, (w'.log_types k).facility_name = (w.log_types k).facility_name
  level : ∀ i ≤ MAX_LOG_TYPES, ∀ j < 3, ∀ target, (∀ c ∈ cs, ∀ v, writes w.reg i j c = some v → v = target) →
    ((w.log_types i).level j = target ∨ ∃ c ∈ cs, writes w.reg i j c = some target) →
    (w'.log_types i).level j = target
  dest : env = none → ∀ x < 6, (destValue w x = destAt w.reg x ∨
    ((∃ c ∈ cs, Refreshes c) ∧ ∀ y ≤ x, Readable w.reg y)) → destValue w' x = destAt w.reg x

theorem Wired.congr {env : Option Bytes} {w w' : Logging} (h : Wired env w) (hs : Sound w'.reg) (hc : CInv w'.reg.cbs)
    (hct : w'.log_type_ct = w.log_type_ct) (hname : ∀ k, (w'.log_types k).facility_name = (w.log_types k).facility_name)
    (hregs : w'.reg.cbs.regs = w.reg.cbs.regs) : Wired env w' := by
  refine ⟨hs, hc, hct ▸ h.room, fun i hi k hk hik => ?_, fun n a c arg => ?_⟩
  · rw [hct] at hi hk
    rw [hname, hname] at hik
    exact h.apart i hi k hk hik
  · rw [hregs, h.regs, FacilityWire, FacilityWire, hct]
    simp only [hname]

theorem writes_map {s s' : Reg} (h : s'.map = s.map) (i j : Nat) (c : Invocation) : writes s' i j c = writes s i j c := by
  unfold writes
  rw [h]

theorem Called.nil {env : Option Bytes} {w : Logging} (h : Wired env w) : Called env w [] w := by
  refine ⟨h, rfl, rfl, fun _ => rfl, fun i _ j _ target _ hw => ?_, fun _ x _ hw => ?_⟩
  · rcases hw with hw | ⟨c, hc, -⟩
    · exact hw
    · cases hc
  · rcases hw with hw | ⟨⟨c, hc, -⟩, -⟩
    · exact hw
    · cases hc

theorem Called.cons {env : Option Bytes} {w w₁ w' : Logging} {c : Invocation} {cs : List Invocation}
    (h : Called env w [c] w₁) (h' : Called env w₁ cs w') : Called env w (c :: cs) w' := by
  refine ⟨h'.wired, h'.map.trans h.map, h'.log_type_ct.trans h.log_type_ct, fun k => (h'.name k).trans (h.name k),
    fun i hi j hj target hall hw => ?_, fun he x hx hw => ?_⟩
  · have hall' : ∀ d ∈ cs, ∀ v, writes w₁.reg i j d = some v → v = target := fun d hd v hv =>
      hall d (by simp [hd]) v (by rwa [writes_map h.map] at hv)
    refine h'.level i hi j hj target hall' ?_
    have hone : ∀ d ∈ [c], ∀ v, writes w.reg i j d = some v → v = target := fun d hd v hv =>
      hall d (by rw [List.mem_singleton.1 hd]; simp) v hv
    rcases hw with hw | ⟨d, hd, hv⟩
    · exact .inl (h.level i hi j hj target hone (.inl hw))
    · rcases List.mem_cons.1 hd with rfl | hd
      · exact .inl (h.level i hi j hj target hone (.inr ⟨d, by simp, hv⟩))
      · exact .inr ⟨d, hd, by rwa [writes_map h.map]⟩
  · rw [← destAt_map h.map]
    refine h'.dest he x hx ?_
    rcases hw with hw | ⟨⟨d, hd, hr⟩, hread⟩
    · rw [destAt_map h.map]
      exact .inl (h.dest he x hx (.inl hw))
    · rcases List.mem_cons.1 hd with rfl | hd
      · rw [destAt_map h.map]
        exact .inl (h.dest he x hx (.inr ⟨⟨d, by simp, hr⟩, hread⟩))
      · exact .inr ⟨⟨d, hd, hr⟩, fun y hy => (readable_map h.map y).2 (hread y hy)⟩

/-- A call that stores a level. -/
theorem Called.stores {env : Option Bytes} {w : Logging} (h : Wired env w) {c : Invocation} {v : Int}
    (hw : ∀ i j, writes w.reg i j c = if c.cb_arg = level_ptr i j then some v else none) (hr : ¬ Refreshes c) :
    Called env w [c] (w.setLevel (levelIndex c.cb_arg).1 (levelIndex c.cb_arg).2 v) := by
  refine ⟨h.congr h.sound h.cbs rfl (fun k => Logging.setLevel_name ..) rfl, rfl, rfl,
    fun k => Logging.setLevel_name .., fun i hi j hj target hall hold => ?_, fun _ x _ hold => ?_⟩
  · have hidx := levelIndex_eq hi hj c.cb_arg
    rw [Logging.setLevel_level]
    by_cases harg : c.cb_arg = level_ptr i j
    · rw [hidx.2 harg, if_pos ⟨rfl, rfl⟩]
      exact hall c (by simp) v (by rw [hw, if_pos harg])
    · rw [if_neg fun h => harg (hidx.1 (Prod.ext h.1.symm h.2.symm))]
      rcases hold with hold | ⟨d, hd, hv⟩
      · exact hold
      · rw [List.mem_singleton.1 hd, hw, if_neg harg] at hv
        cases hv
  · rcases hold with hold | ⟨⟨d, hd, hd'⟩, -⟩
    · exact hold
    · rw [List.mem_singleton.1 hd] at hd'
      exact absurd hd' hr

/-- A call that stores nothing. -/
theorem Called.idle {env : Option Bytes} {w : Logging} (h : Wired env w) {c : Invocation}
    (hw : ∀ i j, writes w.reg i j c = none) (hr : ¬ Refreshes c) : Called env w [c] w := by
  refine ⟨h, rfl, rfl, fun k => rfl, fun i hi j hj target hall hold => ?_, fun _ x _ hold => ?_⟩
  · rcases hold with hold | ⟨d, hd, hv⟩
    · exact hold
    · rw [List.mem_singleton.1 hd, hw] at hv
      cases hv
  · rcases hold with hold | ⟨⟨d, hd, hd'⟩, -⟩
    · exact hold
    · rw [List.mem_singleton.1 hd] at hd'
      exact absurd hd' hr

theorem writes_other {s : Reg} {c : Invocation} (h₁ : c.cb ≠ facility_change_ptr) (h₂ : c.cb ≠ facility_delete_ptr)
    (i j : Nat) : writes s i j c = none := by
  unfold writes
  rw [if_neg h₁, if_neg h₂]
  split <;> rfl

theorem facility_change_spec {env : Option Bytes} {w w' : Logging} (h : Wired env w) {c : Invocation}
    (hv : nr_reg_is_valid c.name = .ok) (hcb : c.cb = facility_change_ptr)
    (hc : r_log_facility_change_cb w c.cb_arg c.name = some w') : Called env w [c] w' := by
  have hr : ¬ Refreshes c := by
    unfold Refreshes
    rw [hcb]
    decide
  unfold r_log_facility_change_cb at hc
  cases hget : r_log_get_reg_level w.reg c.name with
  | none =>
    rw [hget] at hc
    cases hc
  | some level =>
    rw [hget] at hc
    rcases get_reg_level_spec h.sound hv hget with ⟨hm, rfl⟩ | ⟨v, hm, hfit, rfl⟩ | ⟨v, r, hm, hfit, rfl, -⟩
    · cases hc
      refine .idle h (fun i j => ?_) hr
      rw [writes, if_pos hcb, hm]
      split <;> rfl
    · cases hc
      refine .stores h (fun i j => ?_) hr
      rw [writes, if_pos hcb, hm]
      by_cases harg : c.cb_arg = level_ptr i j <;> simp [harg, hfit]
    · cases hc
      refine .idle h (fun i j => ?_) hr
      rw [writes, if_pos hcb, hm]
      by_cases harg : c.cb_arg = level_ptr i j <;> simp [harg, hfit]

theorem facility_delete_spec {env : Option Bytes} {w : Logging} (h : Wired env w) {c : Invocation}
    (hcb : c.cb = facility_delete_ptr) : Called env w [c] (r_log_facility_delete_cb w c.cb_arg) := by
  have hr : ¬ Refreshes c := by
    unfold Refreshes
    rw [hcb]
    decide
  refine .stores h (fun i j => ?_) hr
  have hne : ¬ facility_delete_ptr = facility_change_ptr := by decide
  unfold writes
  rw [hcb, if_neg hne, if_pos rfl]
  by_cases harg : c.cb_arg = level_ptr i j <;> simp [harg]

/-- The callbacks of the destinations register nothing new. -/
theorem destination_change_spec {env : Option Bytes} {w w' : Logging} (h : Wired env w) {c : Invocation}
    (hcb : Refreshes c) (hc : r_log_destination_change_cb env w = some w') : Called env w [c] w' := by
  have hw : ∀ i j, writes w.reg i j c = none := by
    refine writes_other ?_ ?_ <;> rcases hcb with hcb | hcb <;> rw [hcb] <;> decide
  obtain ⟨⟨r, w₁⟩, hget, rfl⟩ := Option.map_eq_some_iff.1 hc
  cases env with
  | some log =>
    cases hget
    refine ⟨h.congr h.sound h.cbs rfl (fun _ => rfl) rfl, rfl, rfl, fun _ => rfl, fun i _ j _ target _ hold => ?_,
      fun he => by cases he⟩
    rcases hold with hold | ⟨d, hd, hv⟩
    · exact hold
    · rw [List.mem_singleton.1 hd, hw] at hv
      cases hv
  | none =>
    have hslots := get_destinations_spec h.sound h.cbs hget
    have hregs : w₁.reg.cbs.regs = w.reg.cbs.regs := by
      obtain ⟨m, hm, hregs, -⟩ := hslots.regs
      rw [hregs]
      refine setSlots_same fun x hx a ha => ?_
      have hlt : x < 6 := by
        have hmem := List.mem_range'_1.1 hx
        omega
      exact (h.regs _ _ _ _).2 (.inr ⟨rfl, x, hlt, rfl, ha, rfl, rfl⟩)
    have hname : ∀ k, (w₁.log_types k).facility_name = (w.log_types k).facility_name := fun k => by
      rw [hslots.log_types]
    have hmap : w₁.reg.map = w.reg.map := by
      rw [hslots.reg]
      rfl
    have hsound : Sound w₁.reg := by
      rw [hslots.reg]
      exact sound_cbs h.sound _
    refine ⟨h.congr hsound hslots.cbs hslots.log_type_ct hname hregs, hmap, hslots.log_type_ct, hname,
      fun i _ j _ target _ hold => ?_, fun _ x hx hold => ?_⟩
    · rw [hslots.log_types]
      rcases hold with hold | ⟨d, hd, hv⟩
      · exact hold
      · rw [List.mem_singleton.1 hd, hw] at hv
        cases hv
    · by_cases hread : ∀ y ≤ x, Readable w.reg y
      · exact hslots.read x (Nat.zero_le x) (by omega) fun y _ hy => hread y hy
      · rw [hslots.kept x fun hx' => hread fun y hy => hx'.2.2 y (Nat.zero_le y) hy]
        rcases hold with hold | ⟨-, hall⟩
        · exact hold
        · exact absurd hall hread

/-- One call of a callback. -/
theorem call_spec {env : Option Bytes} {w w' : Logging} (h : Wired env w) {c : Invocation}
    (hv : nr_reg_is_valid c.name = .ok) (hc : call env w c = some w') : Called env w [c] w' := by
  unfold call at hc
  by_cases h₁ : c.cb = facility_change_ptr
  · rw [if_pos h₁] at hc
    exact facility_change_spec h hv h₁ hc
  rw [if_neg h₁] at hc
  by_cases h₂ : c.cb = facility_delete_ptr
  · rw [if_pos h₂] at hc
    cases hc
    exact facility_delete_spec h h₂
  rw [if_neg h₂] at hc
  by_cases h₃ : c.cb = default_level_change_ptr ∨ c.cb = destination_change_ptr
  · rw [if_pos h₃] at hc
    exact destination_change_spec h h₃ hc
  · rw [if_neg h₃] at hc
    cases hc
    exact .idle h (writes_other h₁ h₂) h₃

theorem calls_spec {env : Option Bytes} {cs : List Invocation} {w w' : Logging} (h : Wired env w)
    (hv : ∀ c ∈ cs, nr_reg_is_valid c.name = .ok) (hc : calls env cs w = some w') : Called env w cs w' := by
  induction cs generalizing w with
  | nil =>
    cases hc
    exact .nil h
  | cons c cs ih =>
    obtain ⟨w₁, hone, hrest⟩ := Option.bind_eq_some_iff.1 hc
    have hcall := call_spec h (hv c (by simp)) hone
    exact hcall.cons (ih hcall.wired (fun d hd => hv d (by simp [hd])) hrest)

/-! ## The calls of an event -/

section
variable {env : Option Bytes} {w w' : Logging} {s : Reg} {new : List (Bytes × UInt8)}

/-- There are few names with registrations. -/
theorem Wired.entries_lt (h : Wired env w) : w.reg.cbs.nr_registry_callbacks.entries < 2 ^ 31 := by
  let names := ((List.range w.log_type_ct).flatMap fun i =>
    (List.range 3).map fun j => facility_key j (w.log_types i).facility_name) ++ (List.range 6).map dest_key
  have hle : w.reg.cbs.nr_registry_callbacks.entries ≤ names.length := by
    refine h.cbs.entries_le fun n a c arg hreg => List.mem_append.2 ?_
    rcases (h.regs n a c arg).1 hreg with ⟨i, hi, j, hj, rfl, -⟩ | ⟨-, x, hx, rfl, -⟩
    · exact .inl (List.mem_flatMap.2 ⟨i, List.mem_range.2 hi, List.mem_map_of_mem (List.mem_range.2 hj)⟩)
    · exact .inr (List.mem_map_of_mem (List.mem_range.2 hx))
  have hlen : names.length = w.log_type_ct * 3 + 6 := by simp [names]
  have hroom := h.room
  rw [MAX_LOG_TYPES] at hroom
  omega

/-- The calls made for events. -/
def raised (w : Logging) (new : List (Bytes × UInt8)) : List Invocation :=
  new.flatMap fun e => callsOf w.reg.cbs e.1 e.2

theorem Wired.mem_raised (h : Wired env w) {c : Invocation} : c ∈ raised w new ↔
    ∃ e ∈ new, OnPath c.key e.1 ∧ c.name = e.1 ∧ c.action = e.2 ∧
      (FacilityWire w c.key e.2 c.cb c.cb_arg ∨ DestWire env c.key e.2 c.cb c.cb_arg) := by
  simp only [raised, List.mem_flatMap, h.cbs.mem_callsOf, h.regs]

/-- A call of the registry has its callbacks called in the state it leaves. -/
theorem announce_spec (h : Wired env w) (hs : Sound s) (hraise : Raises (fun _ => 0) w.reg s)
    (hnew : s.events = w.reg.events ++ new) (hact : ∀ e ∈ new, e.2 ∈ CB_ACTIONS)
    (hc : calls env (announced (fun _ => 0) w.reg s) { w with reg := s } = some w') :
    Called env { w with reg := s } (raised w new) w' := by
  obtain ⟨new', calls, hev, hd, hvalid⟩ := hraise
  obtain rfl : new' = new := by
    rw [hev] at hnew
    exact List.append_cancel_left hnew
  have hidle := delivers_idle h.cbs h.entries_lt hact
  have hcalls := announced_eq hev hd
  rw [hd] at hidle
  obtain ⟨hcbs, rfl⟩ := Prod.mk.inj (Option.some.inj hidle)
  rw [hcalls] at hc
  have hwired : Wired env { w with reg := s } := by
    refine h.congr hs ?_ rfl (fun _ => rfl) ?_
    · show CInv s.cbs
      rw [hcbs]
      exact h.cbs
    · show s.cbs.regs = _
      rw [hcbs]
  refine calls_spec hwired (fun c hmem => ?_) hc
  obtain ⟨e, he, -, hname, -⟩ := h.mem_raised.1 hmem
  rw [hname]
  exact hvalid e he

theorem bits_change {a : UInt8} : a ∈ bits (NR_REG_CB_ACTION_ADD ||| NR_REG_CB_ACTION_CHANGE) ↔
    a = NR_REG_CB_ACTION_ADD ∨ a = NR_REG_CB_ACTION_CHANGE := by
  have hbits : bits (NR_REG_CB_ACTION_ADD ||| NR_REG_CB_ACTION_CHANGE) =
      [NR_REG_CB_ACTION_ADD, NR_REG_CB_ACTION_CHANGE] := by decide
  rw [hbits, List.mem_cons, List.mem_singleton]

theorem bits_delete {a : UInt8} : a ∈ bits NR_REG_CB_ACTION_DELETE ↔ a = NR_REG_CB_ACTION_DELETE := by
  have hbits : bits NR_REG_CB_ACTION_DELETE = [NR_REG_CB_ACTION_DELETE] := by decide
  rw [hbits, List.mem_singleton]

/-- What is written to the level of a facility comes from an event on its key
or below. -/
theorem Wired.of_writes (h : Wired env w) {i j : Nat} (hi : i < w.log_type_ct) (hj : j < 3) {c : Invocation}
    (hc : c ∈ raised w new) {v : Int} (hw : writes s i j c = some v) :
    ∃ e ∈ new, (facility_key j (w.log_types i).facility_name = e.1 ∨
        Ancestor (facility_key j (w.log_types i).facility_name) e.1) ∧
      ((e.2 = NR_REG_CB_ACTION_ADD ∨ e.2 = NR_REG_CB_ACTION_CHANGE) ∧
          (∃ u, s.map e.1 = some (some u) ∧ fitsLevel u = true ∧ v = valueLevel u) ∨
        e.2 = NR_REG_CB_ACTION_DELETE ∧ v = LOG_LEVEL_UNDEFINED) := by
  have hroom := h.room
  obtain ⟨e, he, hpath, hname, -, hwire⟩ := h.mem_raised.1 hc
  refine ⟨e, he, ?_⟩
  unfold writes at hw
  split at hw
  · cases hw
  rename_i harg
  rw [not_not] at harg
  rcases hwire with ⟨k, hk, l, hl, hkey, hrole, harg'⟩ | ⟨-, x, -, -, -, hptr, -⟩
  · obtain ⟨rfl, rfl⟩ := level_ptr_inj (by omega) (by omega) hj hl (harg.symm.trans harg')
    rw [← hkey]
    refine ⟨?_, ?_⟩
    · rcases hpath with hpath | hpath | hpath
      · exact .inl hpath
      · exact .inr hpath
      · rw [hpath] at hkey
        exact absurd hkey.symm (facility_key_ne_nil _ _)
    · rcases hrole with ⟨hcb, ha⟩ | ⟨hcb, ha⟩
      · rw [if_pos hcb, hname] at hw
        refine .inl ⟨bits_change.1 ha, ?_⟩
        split at hw
        · rename_i u hm
          split at hw
          · rename_i hfit
            exact ⟨u, hm, hfit, (Option.some.inj hw).symm⟩
          · cases hw
        · cases hw
      · rw [hcb, if_neg (by decide), if_pos rfl] at hw
        exact .inr ⟨bits_delete.1 ha, (Option.some.inj hw).symm⟩
  · have hrole : ∀ a, ¬ Role a c.cb := fun a => by
      rw [hptr]
      exact dest_ptr_role
    split at hw
    · rename_i hcb
      exact absurd (.inl ⟨hcb, bits_change.2 (.inl rfl)⟩) (hrole _)
    · split at hw
      · rename_i hcb
        exact absurd (.inr ⟨hcb, bits_delete.2 rfl⟩) (hrole _)
      · cases hw

/-- After the calls for events a level is that of its key: events below the key
may write no other level, one on the key may have to write it. -/
theorem Called.follows (h : Wired env w) (hcalled : Called env { w with reg := s } (raised w new) w') {i j : Nat}
    (hi : i < w.log_type_ct) (hj : j < 3) {k : Bytes} (hk : k = facility_key j (w.log_types i).facility_name)
    (hset : ∀ e ∈ new, (k = e.1 ∨ Ancestor k e.1) → e.2 = NR_REG_CB_ACTION_ADD ∨ e.2 = NR_REG_CB_ACTION_CHANGE →
      ∀ u, s.map e.1 = some (some u) → fitsLevel u = true → valueLevel u = levelAt s k)
    (hdel : ∀ e ∈ new, (k = e.1 ∨ Ancestor k e.1) → e.2 = NR_REG_CB_ACTION_DELETE →
      levelAt s k = LOG_LEVEL_UNDEFINED)
    (hold : (w.log_types i).level j = levelAt s k ∨ ∃ a, (k, a) ∈ new ∧
      ((a = NR_REG_CB_ACTION_ADD ∨ a = NR_REG_CB_ACTION_CHANGE) ∧
          (∃ u, s.map k = some (some u) ∧ fitsLevel u = true) ∨ a = NR_REG_CB_ACTION_DELETE)) :
    (w'.log_types i).level j = levelAt s k := by
  have hroom := h.room
  refine hcalled.level i (by omega) j hj _ (fun c hc v hw => ?_) ?_
  · obtain ⟨e, he, hpath, hcase⟩ := h.of_writes hi hj hc hw
    rw [← hk] at hpath
    rcases hcase with ⟨ha, u, hm, hfit, rfl⟩ | ⟨ha, rfl⟩
    · exact hset e he hpath ha u hm hfit
    · exact (hdel e he hpath ha).symm
  · rcases hold with hold | ⟨a, he, hcase⟩
    · exact .inl hold
    · right
      have hwire : ∀ cb, Role a cb → FacilityWire w k a cb (level_ptr i j) := fun cb hr => ⟨i, hi, j, hj, hk, hr, rfl⟩
      rcases hcase with ⟨ha, u, hm, hfit⟩ | ha
      · refine ⟨⟨k, facility_change_ptr, level_ptr i j, a, k⟩, h.mem_raised.2
          ⟨(k, a), he, .inl rfl, rfl, rfl, .inl (hwire _ (.inl ⟨rfl, bits_change.2 ha⟩))⟩, ?_⟩
        rw [writes, if_neg (not_not.2 rfl), if_pos rfl, hm]
        dsimp only
        rw [if_pos hfit, levelAt, hm]
      · refine ⟨⟨k, facility_delete_ptr, level_ptr i j, a, k⟩, h.mem_raised.2
          ⟨(k, a), he, .inl rfl, rfl, rfl, .inl (hwire _ (.inr ⟨rfl, bits_delete.2 ha⟩))⟩, ?_⟩
        have hne : ¬ facility_delete_ptr = facility_change_ptr := by decide
        rw [writes, if_neg (not_not.2 rfl), if_neg hne, if_pos rfl, hdel (k, a) he (.inl rfl) ha]

/-- After the calls for events the value of a destination is what its key
denotes, if it was before or there is an event on the key and the keys up to it
can be read. -/
theorem Called.dest_follows (h : Wired none w) (hcalled : Called none { w with reg := s } (raised w new) w') {x : Nat}
    (hx : x < 6) (hold : destValue w x = destAt s x ∨ ((∃ a, (dest_key x, a) ∈ new ∧ a ∈ bits NR_REG_CB_ACTIONS) ∧
      ∀ y ≤ x, Readable s y)) : destValue w' x = destAt s x := by
  refine hcalled.dest rfl x hx ?_
  rcases hold with hold | ⟨⟨a, he, ha⟩, hread⟩
  · exact .inl hold
  · refine .inr ⟨⟨⟨dest_key x, dest_ptr x, 0, a, dest_key x⟩, h.mem_raised.2
      ⟨(dest_key x, a), he, .inl rfl, rfl, rfl, .inr ⟨rfl, x, hx, rfl, ha, rfl, rfl⟩⟩, ?_⟩, hread⟩
    show dest_ptr x = _ ∨ dest_ptr x = _
    unfold dest_ptr
    split
    · exact .inl rfl
    · exact .inr rfl

end

end Nrappkit.Log
