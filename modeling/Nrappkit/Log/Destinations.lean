import Nrappkit.Log.Reading
/-!
# Reading the destinations

`r_log_get_destinations` reads six keys in order and stops at the first that
holds a value of the wrong type or a string that is too long; what comes behind
it keeps its value and may be left without a callback.
-/
open Lib Nrappkit.Registry

namespace Nrappkit.Log

/-- The part of the loop for one key. -/
def get_slot (w : Logging) (x : Nat) : Option (Status × Logging) :=
  if x % 2 = 0 then get_default_level w (x / 2) else get_enabled w (x / 2)

/-- The loop, for the keys of a list. -/
def get_slots : List Nat → Logging → Option (Status × Logging)
  | [], w => some (.ok, w)
  | x :: xs, w =>
    match get_slot w x with
    | none => none
    | some (.ok, w) => get_slots xs w
    | some (r, w) => some (r, w)

theorem get_destinations_eq (js : List Nat) (w : Logging) :
    get_destinations js w = get_slots (js.flatMap fun j => [2 * j, 2 * j + 1]) w := by
  induction js generalizing w with
  | nil => rfl
  | cons j js ih =>
    have heven : ∀ w, get_slot w (2 * j) = get_default_level w j := fun w => by
      rw [get_slot, if_pos (by omega), Nat.mul_div_cancel_left j (by decide)]
    have hodd : ∀ w, get_slot w (2 * j + 1) = get_enabled w j := fun w => by
      rw [get_slot, if_neg (by omega), show (2 * j + 1) / 2 = j by omega]
    rw [get_destinations, List.flatMap_cons, List.cons_append, List.cons_append, List.nil_append, get_slots, heven]
    cases get_default_level w j with
    | none => rfl
    | some o =>
      obtain ⟨r, w₁⟩ := o
      cases r with
      | ok =>
        dsimp only
        rw [get_slots, hodd]
        cases get_enabled w₁ j with
        | none => rfl
        | some o =>
          obtain ⟨r, w₂⟩ := o
          cases r with
          | ok => exact ih w₂
          | _ => rfl
      | _ => rfl

/-! ## One key -/

theorem destValue_level (w : Logging) (j : Nat) (v : Int) :
    destValue (w.setDest j { w.log_destinations j with default_level := v }) =
      Function.update (destValue w) (2 * j) v := by
  funext x
  unfold destValue Logging.setDest
  by_cases hx : x = 2 * j
  · subst hx
    simp
  · rw [Function.update_of_ne hx]
    by_cases hj : x / 2 = j
    · have hodd : ¬ x % 2 = 0 := by omega
      simp [hj, hodd]
    · simp [Function.update_of_ne hj]

theorem destValue_enabled (w : Logging) (j : Nat) (v : Int) :
    destValue (w.setDest j { w.log_destinations j with enabled := v }) =
      Function.update (destValue w) (2 * j + 1) v := by
  funext x
  unfold destValue Logging.setDest
  by_cases hx : x = 2 * j + 1
  · subst hx
    have hdiv : (2 * j + 1) / 2 = j := by omega
    simp [hdiv]
  · rw [Function.update_of_ne hx]
    by_cases hj : x / 2 = j
    · have heven : x % 2 = 0 := by omega
      simp [hj, heven]
    · simp [Function.update_of_ne hj]

/-- What reading keys leaves alone. -/
structure Kept (w w' : Logging) : Prop where
  reg : w'.reg = { w.reg with cbs := w'.reg.cbs }
  cbs : CInv w'.reg.cbs
  log_types : w'.log_types = w.log_types
  log_type_ct : w'.log_type_ct = w.log_type_ct

namespace Kept
variable {w w₁ w' : Logging}

theorem refl (h : CInv w.reg.cbs) : Kept w w := ⟨rfl, h, rfl, rfl⟩

theorem trans (h : Kept w w₁) (h' : Kept w₁ w') : Kept w w' :=
  ⟨by rw [h'.reg, h.reg], h'.cbs, h'.log_types.trans h.log_types, h'.log_type_ct.trans h.log_type_ct⟩

end Kept

/-- The registrations with the one for a key of the destinations. -/
def setSlot (m : Bytes → UInt8 → UInt64 → Option UInt64) (x : Nat) : Bytes → UInt8 → UInt64 → Option UInt64 :=
  setReg m (dest_key x) (bits NR_REG_CB_ACTIONS) (dest_ptr x) (some 0)

theorem readable_map {s s' : Reg} (h : s'.map = s.map) (x : Nat) : Readable s' x ↔ Readable s x := by
  unfold Readable
  rw [h]

theorem destAt_map {s s' : Reg} (h : s'.map = s.map) (x : Nat) : destAt s' x = destAt s x := by
  unfold destAt
  rw [h]

theorem sound_cbs {s : Reg} (h : Sound s) (cbs : Cbs) : Sound { s with cbs } :=
  ⟨⟨h.1.rep, h.1.names, h.1.block⟩, h.2⟩

/-- Registering a callback under a valid name. -/
theorem register_callback_ok {w : Logging} (hc : CInv w.reg.cbs) {name : Bytes} {mask : UInt8} {cb : UInt64}
    (cb_arg : UInt64) (hcb : cb ≠ 0) (hv : nr_reg_is_valid name = .ok)
    (hm : leftover mask = 0) :
    ∃ cbs, register_callback w name mask cb cb_arg = some (.ok, w.setCbs cbs) ∧ CInv cbs ∧
      cbs.regs = setReg w.reg.cbs.regs name (bits mask) cb (some cb_arg) := by
  obtain ⟨cbs, hreg, hc', hregs⟩ := NR_reg_register_ok hc cb_arg hcb hv hm
  exact ⟨cbs, by rw [register_callback, hreg]; rfl, hc', hregs⟩

/-- What reading one key does. -/
structure Slot (w : Logging) (x : Nat) (r : Status) (w' : Logging) : Prop extends Kept w w' where
  regs : w'.reg.cbs.regs = setSlot w.reg.cbs.regs x
  ok : r = .ok ↔ Readable w.reg x
  value : destValue w' = if r = .ok then Function.update (destValue w) x (destAt w.reg x) else destValue w

namespace Slot
variable {w : Logging} {cbs : Cbs} {x j : Nat} {d : log_destination} {r : Status}

theorem read (hc : CInv cbs) (hregs : cbs.regs = setSlot w.reg.cbs.regs x) (hread : Readable w.reg x)
    (hval : destValue ((w.setCbs cbs).setDest j d) = Function.update (destValue w) x (destAt w.reg x)) :
    Slot w x .ok ((w.setCbs cbs).setDest j d) where
  reg := rfl
  cbs := hc
  log_types := rfl
  log_type_ct := rfl
  regs := hregs
  ok := iff_of_true rfl hread
  value := by rw [if_pos rfl, hval]

theorem failed (hc : CInv cbs) (hregs : cbs.regs = setSlot w.reg.cbs.regs x) (hread : ¬ Readable w.reg x)
    (hr : r ≠ .ok) : Slot w x r (w.setCbs cbs) where
  reg := rfl
  cbs := hc
  log_types := rfl
  log_type_ct := rfl
  regs := hregs
  ok := iff_of_false hr hread
  value := by rw [if_neg hr]; rfl

end Slot

theorem slot_absent {s : Reg} {x : Nat} (h : s.map (dest_key x) = none) : Readable s x ∧ destAt s x = unset x := by
  constructor
  · intro v hv
    rw [h] at hv
    cases hv
  · rw [destAt, h]

theorem slot_stored {s : Reg} {x : Nat} {v : Value} (h : s.map (dest_key x) = some (some v)) :
    (Readable s x ↔ fits x v = true) ∧ destAt s x = denotes x v := by
  refine ⟨⟨fun hread => hread v h, fun hfit v' hv' => ?_⟩, by rw [destAt, h]⟩
  rw [h] at hv'
  cases hv'
  exact hfit

theorem get_default_level_spec {w w' : Logging} (hs : Sound w.reg) (hc : CInv w.reg.cbs) {j : Nat} (hj : 2 * j < 6)
    {r : Status} (h : get_default_level w j = some (r, w')) : Slot w (2 * j) r w' := by
  have heven : 2 * j % 2 = 0 := Nat.mul_mod_right 2 j
  have hkey : dest_key (2 * j) = level_key j := by rw [dest_key, if_pos heven, Nat.mul_div_cancel_left j (by decide)]
  have hptr : dest_ptr (2 * j) = default_level_change_ptr := if_pos heven
  obtain ⟨hv, hlen⟩ := dest_key_valid _ hj
  obtain ⟨cbs, hreg, hc', hregs⟩ := register_callback_ok hc 0 (show default_level_change_ptr ≠ 0 by decide) hv
    (show leftover NR_REG_CB_ACTIONS = 0 by decide)
  rw [← hptr] at hregs
  unfold get_default_level at h
  rw [← hkey, if_neg (Nat.not_le.2 hlen), hreg] at h
  dsimp only at h
  cases hget : r_log_get_reg_level (w.setCbs cbs).reg (dest_key (2 * j)) with
  | none =>
    rw [hget] at h
    cases h
  | some level =>
    rw [hget] at h
    rcases get_reg_level_spec (sound_cbs hs cbs) hv hget with ⟨hm, rfl⟩ | ⟨v, hm, hfit, rfl⟩ | ⟨v, e, hm, hfit, rfl, he⟩
    · replace hm : w.reg.map (dest_key (2 * j)) = none := hm
      cases h
      refine .read hc' hregs (slot_absent hm).1 ?_
      rw [(slot_absent hm).2, unset, if_pos heven]
      exact destValue_level w j _
    · replace hm : w.reg.map (dest_key (2 * j)) = some (some v) := hm
      cases h
      refine .read hc' hregs ((slot_stored hm).1.2 (by rw [fits, if_pos heven, hfit])) ?_
      rw [(slot_stored hm).2, denotes_level heven]
      exact destValue_level w j _
    · have hfails : (some (.R_INTERNAL, w.setCbs cbs) : Option (Status × Logging)) = some (r, w') := by
        rw [← h]
        cases e <;> first | rfl | exact absurd rfl he
      cases hfails
      refine .failed hc' hregs (fun hread => ?_) (by decide)
      have hfit' := (slot_stored hm).1.1 hread
      rw [fits, if_pos heven, hfit] at hfit'
      cases hfit'

theorem get_enabled_spec {w w' : Logging} (hs : Sound w.reg) (hc : CInv w.reg.cbs) {j : Nat} (hj : 2 * j + 1 < 6)
    {r : Status} (h : get_enabled w j = some (r, w')) : Slot w (2 * j + 1) r w' := by
  have hodd : ¬ (2 * j + 1) % 2 = 0 := by omega
  have hkey : dest_key (2 * j + 1) = enabled_key j := by
    rw [dest_key, if_neg hodd, show (2 * j + 1) / 2 = j by omega]
  have hptr : dest_ptr (2 * j + 1) = destination_change_ptr := if_neg hodd
  obtain ⟨hv, hlen⟩ := dest_key_valid _ hj
  obtain ⟨cbs, hreg, hc', hregs⟩ := register_callback_ok hc 0 (show destination_change_ptr ≠ 0 by decide) hv
    (show leftover NR_REG_CB_ACTIONS = 0 by decide)
  rw [← hptr] at hregs
  unfold get_enabled at h
  rw [← hkey, if_neg (Nat.not_le.2 hlen), hreg] at h
  dsimp only at h
  rcases get_char_spec (sound_cbs hs cbs) hv with ⟨hm, hget⟩ | ⟨c, hm, hget⟩ | ⟨v, hm, ht, hget⟩
  · replace hm : w.reg.map (dest_key (2 * j + 1)) = none := hm
    rw [show nr_reg_local_get_char (w.setCbs cbs).reg _ = _ from hget] at h
    cases h
    refine .read hc' hregs (slot_absent hm).1 ?_
    rw [(slot_absent hm).2, unset, if_neg hodd]
    exact destValue_enabled w j _
  · replace hm : w.reg.map (dest_key (2 * j + 1)) = some (some (.scalar (._char c))) := hm
    rw [show nr_reg_local_get_char (w.setCbs cbs).reg _ = _ from hget] at h
    cases h
    refine .read hc' hregs ((slot_stored hm).1.2 (by rw [fits, if_neg hodd]; rfl)) ?_
    rw [(slot_stored hm).2, denotes_char hodd]
    exact destValue_enabled w j _
  · rw [show nr_reg_local_get_char (w.setCbs cbs).reg _ = _ from hget] at h
    cases h
    refine .failed hc' hregs (fun hread => ?_) (by decide)
    have hfit := (slot_stored hm).1.1 hread
    rw [fits, if_neg hodd, decide_eq_true_eq] at hfit
    exact ht hfit

/-- Reading one key: a callback is registered for it and, if it can be read,
the value is what it denotes. -/
theorem get_slot_spec {w w' : Logging} (hs : Sound w.reg) (hc : CInv w.reg.cbs) {x : Nat} (hx : x < 6) {r : Status}
    (h : get_slot w x = some (r, w')) : Slot w x r w' := by
  unfold get_slot at h
  split at h
  · have heq : x = 2 * (x / 2) := by omega
    rw [heq]
    exact get_default_level_spec hs hc (by omega) h
  · have heq : x = 2 * (x / 2) + 1 := by omega
    rw [heq]
    exact get_enabled_spec hs hc (by omega) h

/-! ## All keys -/

/-- What reading the keys from `x` on does, `n` of them: it registers callbacks
for some first part of them, and for all when they can be read. -/
structure Slots (w : Logging) (x n : Nat) (w' : Logging) : Prop extends Kept w w' where
  regs : ∃ m ≤ n, w'.reg.cbs.regs = (List.range' x m).foldl setSlot w.reg.cbs.regs ∧
    ((∀ y, x ≤ y → y < x + n → Readable w.reg y) → m = n)
  read : ∀ z, x ≤ z → z < x + n → (∀ y, x ≤ y → y ≤ z → Readable w.reg y) → destValue w' z = destAt w.reg z
  kept : ∀ z, ¬ (x ≤ z ∧ z < x + n ∧ ∀ y, x ≤ y → y ≤ z → Readable w.reg y) → destValue w' z = destValue w z

theorem get_slots_spec {n x : Nat} (hx : x + n ≤ 6) {w w' : Logging} (hs : Sound w.reg) (hc : CInv w.reg.cbs)
    {r : Status} (h : get_slots (List.range' x n) w = some (r, w')) : Slots w x n w' := by
  induction n generalizing x w with
  | zero =>
    cases h
    refine ⟨.refl hc, ⟨0, Nat.le_refl 0, rfl, fun _ => rfl⟩, fun z hz hlt => ?_, fun z _ => rfl⟩
    exact absurd hlt (Nat.not_lt.2 hz)
  | succ n ih =>
    rw [List.range'_succ, get_slots] at h
    cases hget : get_slot w x with
    | none =>
      rw [hget] at h
      cases h
    | some o =>
      obtain ⟨r₁, w₁⟩ := o
      have hslot := get_slot_spec hs hc (show x < 6 by omega) hget
      have hmap : w₁.reg.map = w.reg.map := by rw [hslot.reg]; rfl
      by_cases hr : r₁ = .ok
      · subst hr
        rw [hget] at h
        have hread := hslot.ok.1 rfl
        have hs₁ : Sound w₁.reg := by
          rw [hslot.reg]
          exact sound_cbs hs _
        have hrest := ih (show x + 1 + n ≤ 6 by omega) hs₁ hslot.cbs h
        have hval := hslot.value
        rw [if_pos rfl] at hval
        have hreadable := readable_map hmap
        refine ⟨hslot.toKept.trans hrest.toKept, ?_, fun z hz hlt hall => ?_, fun z hz => ?_⟩
        · obtain ⟨m, hm, hregs, hall⟩ := hrest.regs
          refine ⟨m + 1, by omega, by rw [List.range'_succ, List.foldl_cons, ← hslot.regs, hregs], fun hread' => ?_⟩
          rw [hall fun y hy hlt => (hreadable y).2 (hread' y (by omega) (by omega))]
        · by_cases hzx : z = x
          · subst hzx
            rw [hrest.kept z (by omega), hval, Function.update_self]
          · rw [hrest.read z (by omega) (by omega) fun y hy hle => (hreadable y).2 (hall y (by omega) hle),
              destAt_map hmap]
        · have hzx : z ≠ x := by
            rintro rfl
            refine hz ⟨Nat.le_refl z, by omega, fun y hy hle => ?_⟩
            rwa [Nat.le_antisymm hle hy]
          rw [hrest.kept z fun ⟨hle, hlt, hall⟩ => hz ⟨by omega, by omega, fun y hy hle' => ?_⟩, hval,
            Function.update_of_ne hzx]
          by_cases hyx : y = x
          · rwa [hyx]
          · exact (hreadable y).1 (hall y (by omega) hle')
      · have hstop : (some (r₁, w₁) : Option (Status × Logging)) = some (r, w') := by
          rw [← h, hget]
          cases r₁ <;> first | rfl | exact absurd rfl hr
        cases hstop
        have hread : ¬ Readable w.reg x := fun hread => hr (hslot.ok.2 hread)
        have hval := hslot.value
        rw [if_neg hr] at hval
        refine ⟨hslot.toKept, ⟨1, by omega, hslot.regs, fun hall => ?_⟩, fun z hz _ hall => ?_, fun z _ => ?_⟩
        · exact absurd (hall x (Nat.le_refl x) (by omega)) hread
        · exact absurd (hall x (Nat.le_refl x) hz) hread
        · rw [hval]

/-- Reading the destinations, where the environment does not name one. -/
theorem get_destinations_spec {w w' : Logging} (hs : Sound w.reg) (hc : CInv w.reg.cbs) {r : Status}
    (h : r_log_get_destinations none w = some (r, w')) : Slots w 0 6 w' := by
  have hlist : (List.range LOG_NUM_DESTINATIONS).flatMap (fun j => [2 * j, 2 * j + 1]) = List.range' 0 6 := by decide
  rw [r_log_get_destinations, get_destinations_eq, hlist] at h
  exact get_slots_spec (Nat.le_refl 6) hs hc h

end Nrappkit.Log
