import Nrappkit.Log.Levels
/-!
# What the keys denote

The level a facility's key denotes, the six keys of the destinations in the
order in which they are read, and what reading them leaves in the tables.
-/
open Lib Nrappkit.Registry

namespace Nrappkit.Log

/-! ## Levels -/

/-- The level that a value denotes: words of more than 31 bytes are unknown. -/
def valueLevel : Value → Int
  | .array true content =>
    if content.length ≤ 32 then wordLevel (content.takeWhile (· ≠ 0)) else LOG_LEVEL_UNDEFINED
  | _ => LOG_LEVEL_UNDEFINED

/-- `r_log_get_reg_level` can read the value. -/
def fitsLevel : Value → Bool
  | .array true content => content.length ≤ 32
  | _ => false

/-- The level under a key. -/
def levelAt (s : Reg) (key : Bytes) : Int :=
  match s.map key with
  | some (some v) => valueLevel v
  | _ => LOG_LEVEL_UNDEFINED

theorem valueLevel_unfit {v : Value} (h : fitsLevel v = false) : valueLevel v = LOG_LEVEL_UNDEFINED := by
  cases v with
  | scalar v => rfl
  | registry => rfl
  | array string content =>
    cases string with
    | false => rfl
    | true => exact if_neg (by simpa [fitsLevel] using h)

theorem stringAt_takeWhile {content b : Bytes} (h : stringAt (content.map some) = some b) :
    content.takeWhile (· ≠ 0) = b := by
  induction content generalizing b with
  | nil => cases h
  | cons c content ih =>
    rw [List.map_cons, stringAt] at h
    split at h
    · rename_i hc
      cases h
      simp [hc]
    · rename_i hc
      obtain ⟨l, hl, rfl⟩ := Option.map_eq_some_iff.1 h
      rw [List.takeWhile_cons_of_pos (by simpa using hc), ih hl]

section
variable {s : Reg} {key : Bytes}

theorem fetch_absent (h : Sound s) (hv : nr_reg_is_valid key = .ok) (hm : s.map key = none) (type : NR_REG_TYPE) :
    nr_reg_fetch_node s key type = some (.error .R_NOT_FOUND) := by
  rw [h.1.fetch_node hv, map_none.1 hm]

/-- What `r_log_get_reg_level` returns for a valid key. -/
theorem get_reg_level_spec (h : Sound s) (hv : nr_reg_is_valid key = .ok) {x : Except Status Int}
    (hx : r_log_get_reg_level s key = some x) :
    (s.map key = none ∧ x = .error .R_NOT_FOUND) ∨
    (∃ v, s.map key = some (some v) ∧ fitsLevel v = true ∧ x = .ok (valueLevel v)) ∨
    (∃ v r, s.map key = some (some v) ∧ fitsLevel v = false ∧ x = .error r ∧ r ≠ .R_NOT_FOUND) := by
  unfold r_log_get_reg_level at hx
  cases hm : s.map key with
  | none =>
    have hget : nr_reg_local_get_string s key 32 = some (.error .R_NOT_FOUND) := by
      unfold nr_reg_local_get_string nr_reg_get_array
      rw [fetch_absent h hv hm]
    rw [hget] at hx
    exact .inl ⟨rfl, (Option.some.inj hx).symm⟩
  | some o =>
    cases o with
    | none => exact absurd hm (h.2.live key)
    | some v =>
      have hgetter : (nr_reg_local_get_string s key 32).map (·.map (Value.array true)) =
          some (if v.type ≠ .STRING then .error .R_FAILED else if 32 < v.size then .error .R_BAD_ARGS else .ok v) :=
        getter_stored h.1 hm 32 .STRING
      obtain ⟨o, ho, heq⟩ := Option.map_eq_some_iff.1 hgetter
      rw [ho] at hx
      refine .inr ?_
      cases o with
      | error r =>
        refine .inr ⟨v, r, rfl, ?_, (Option.some.inj hx).symm, ?_⟩
        · cases v with
          | scalar v => rfl
          | registry => rfl
          | array string content =>
            cases string with
            | false => rfl
            | true =>
              rw [if_neg (by simp [Value.type, arrayType])] at heq
              split at heq
              · rename_i hlong
                exact decide_eq_false (Nat.not_le.2 hlong)
              · cases heq
        · rintro rfl
          repeat' split at heq
          all_goals cases heq
      | ok content =>
        repeat' split at heq
        · cases heq
        · cases heq
        · rename_i hsize
          obtain rfl : Value.array true content = v := Except.ok.inj heq
          have hle : content.length ≤ 32 := Nat.not_lt.1 hsize
          obtain ⟨b, hb, rfl⟩ := Option.map_eq_some_iff.1 hx
          exact .inl ⟨_, rfl, decide_eq_true hle, by rw [valueLevel, if_pos hle, stringAt_takeWhile hb]⟩

/-- What `NR_reg_get_char` returns for a valid key. -/
theorem get_char_spec (h : Sound s) (hv : nr_reg_is_valid key = .ok) :
    (s.map key = none ∧ nr_reg_local_get_char s key = some (.error .R_NOT_FOUND)) ∨
    (∃ c, s.map key = some (some (.scalar (._char c))) ∧ nr_reg_local_get_char s key = some (.ok (._char c))) ∨
    (∃ v, s.map key = some (some v) ∧ v.type ≠ .CHAR ∧ nr_reg_local_get_char s key = some (.error .R_FAILED)) := by
  unfold nr_reg_local_get_char nr_reg_get
  cases hm : s.map key with
  | none =>
    rw [fetch_absent h hv hm]
    exact .inl ⟨rfl, rfl⟩
  | some o =>
    cases o with
    | none => exact absurd hm (h.2.live key)
    | some v =>
      obtain ⟨p, node, hp, hn, rfl, -⟩ := h.1.node_of_map hm
      rw [fetch_stored h.1 hp hn]
      by_cases ht : node.type = .CHAR
      · rw [if_neg (not_not.2 ht)]
        cases node with
        | scalar v =>
          cases v with
          | _char c => exact .inr (.inl ⟨c, rfl, rfl⟩)
          | _ => cases ht
        | registry => cases ht
        | array string length data => cases string <;> cases ht
      · rw [if_pos ht]
        exact .inr (.inr ⟨_, rfl, by rwa [Node.value_type], rfl⟩)

end

/-! ## The keys of the destinations -/

/-- The six keys, in the order in which they are read: the level and the flag
of one destination, and then of the next. -/
def dest_key (x : Nat) : Bytes := if x % 2 = 0 then level_key (x / 2) else enabled_key (x / 2)

def dest_ptr (x : Nat) : UInt64 := if x % 2 = 0 then default_level_change_ptr else destination_change_ptr

/-- What is kept for a key. -/
def destValue (w : Logging) (x : Nat) : Int :=
  if x % 2 = 0 then (w.log_destinations (x / 2)).default_level else (w.log_destinations (x / 2)).enabled

/-- What a stored value denotes for a key. -/
def denotes (x : Nat) (v : Value) : Int :=
  if x % 2 = 0 then valueLevel v
  else match v with
    | .scalar (._char c) => c.toInt
    | _ => 0

theorem denotes_level {x : Nat} (h : x % 2 = 0) (v : Value) : denotes x v = valueLevel v := if_pos h

theorem denotes_char {x : Nat} (h : ¬ x % 2 = 0) (c : Int8) : denotes x (.scalar (._char c)) = c.toInt := if_neg h

/-- What a key without a value denotes. -/
def unset (x : Nat) : Int := if x % 2 = 0 then LOG_LEVEL_UNDEFINED else 0

/-- The value can be read under a key. -/
def fits (x : Nat) (v : Value) : Bool := if x % 2 = 0 then fitsLevel v else v.type = .CHAR

/-- What a key denotes. -/
def destAt (s : Reg) (x : Nat) : Int :=
  match s.map (dest_key x) with
  | some (some v) => denotes x v
  | _ => unset x

/-- The key can be read. -/
def Readable (s : Reg) (x : Nat) : Prop := ∀ v, s.map (dest_key x) = some (some v) → fits x v = true

theorem denotes_unfit {x : Nat} {v : Value} (h : fits x v = false) : denotes x v = unset x := by
  unfold denotes unset
  unfold fits at h
  split
  · rename_i hx
    rw [if_pos hx] at h
    exact valueLevel_unfit h
  · rename_i hx
    rw [if_neg hx, decide_eq_false_iff_not] at h
    split
    · exact absurd rfl h
    · rfl

theorem dest_key_valid : ∀ x < 6, nr_reg_is_valid (dest_key x) = .ok ∧ (dest_key x).length < NR_REG_MAX_NR_REGISTRY_LEN := by
  decide

theorem dest_key_inj : ∀ x < 6, ∀ y < 6, dest_key x = dest_key y → x = y := by decide

end Nrappkit.Log
