import Nrappkit.Stats.Theorems
/-!
# The names of records

A record is stored under the name of the application, the module and the type,
with dots between them, and its type is looked up by what follows the last dot.
The array has room for 77 bytes and a terminator; `compute_name` accepts that
many, and has `snprintf` write one less.
-/
open Lib

namespace Nrappkit.Stats

/-! ## The functions -/

/-- `strrchr(name, '.')`, as what follows the last dot. -/
def get_type_name_from_name (name : Bytes) : Except Status Bytes :=
  if 46 ∈ name then .ok (name.reverse.takeWhile (· ≠ 46)).reverse else .error .R_BAD_ARGS

def get_type_from_name (types : List NR_stats_type) (name : Bytes) : Except Status NR_stats_type :=
  match get_type_name_from_name name with
  | .error r => .error r
  | .ok type_name =>
    match (find_type_index types type_name).bind fun i => types[i]? with
    | none => .error .R_BAD_ARGS
    | some type => .ok type

/-- The name that `compute_name` is for. -/
def fullName (app : Bytes) (module_name : Option Bytes) (type_name : Bytes) : Bytes :=
  match module_name with
  | some module_name => app ++ str "." ++ module_name ++ str "." ++ type_name
  | none => app ++ str "." ++ type_name

/-- The longest name that is stored as it is. -/
def MAX_WHOLE_NAME : Nat := NR_MAX_STATS_NAME - 2

/-- What the calls pass are strings, and sizes that an `int` holds; clients write
to their blocks only. -/
def Sane (s : Process) : Op → Prop
  | .get module_name type => (∀ app, s.app = some app → 0 ∉ fullName app module_name type.name) ∧ type.size.toNat < 2 ^ 31
  | .fill stats data => Owns s.recs stats data

theorem compute_name_eq (app : Bytes) (module_name : Option Bytes) (type_name : Bytes) :
    compute_name app module_name type_name =
      if (fullName app module_name type_name).length ≥ NR_MAX_STATS_NAME then .error .R_BAD_ARGS
      else .ok ((fullName app module_name type_name).take MAX_WHOLE_NAME) := by
  cases module_name <;> rfl

theorem fullName_split (app : Bytes) (module_name : Option Bytes) (type_name : Bytes) :
    ∃ front, fullName app module_name type_name = front ++ 46 :: type_name := by
  have hdot : str "." = [46] := by decide
  cases module_name with
  | some module_name => exact ⟨app ++ str "." ++ module_name, by simp [fullName, hdot]⟩
  | none => exact ⟨app, by simp [fullName, hdot]⟩

/-- The last dot of a full name is the one before the type. -/
theorem type_name_of_full {app : Bytes} {module_name : Option Bytes} {type_name : Bytes} (h : 46 ∉ type_name) :
    get_type_name_from_name (fullName app module_name type_name) = .ok type_name := by
  obtain ⟨front, hfull⟩ := fullName_split app module_name type_name
  have hinside : ∀ c ∈ type_name.reverse, (decide (c ≠ 46)) = true := by
    intro c hc
    refine decide_eq_true ?_
    rintro rfl
    exact h (List.mem_reverse.1 hc)
  rw [hfull, get_type_name_from_name, if_pos (by simp), List.reverse_append, List.reverse_cons, List.append_assoc,
    List.takeWhile_append_of_pos hinside]
  simp

section
variable {s s' : Process} {module_name : Option Bytes} {type : NR_stats_type} {app : Bytes} {a : Int}

/-- What is looked for is the first bytes of the full name. -/
theorem storedName_full (happ : s.app = some app) {n : Bytes} (h : storedName s.app module_name type = some n) :
    n = (fullName app module_name type.name).take MAX_WHOLE_NAME ∧
      (fullName app module_name type.name).length < NR_MAX_STATS_NAME := by
  rw [storedName, happ, Option.bind_some, compute_name_eq] at h
  split at h
  · cases h
  · rename_i hlen
    exact ⟨(Option.some.inj h).symm, Nat.not_le.1 hlen⟩

theorem Sane.stored (hs : Sane s (.get module_name type)) {n : Bytes} (h : storedName s.app module_name type = some n) :
    0 ∉ n := by
  obtain ⟨app, happ, -⟩ := Option.bind_eq_some_iff.1 h
  obtain ⟨rfl, -⟩ := storedName_full happ h
  exact fun hmem => hs.1 app happ (List.mem_of_mem_take hmem)

end

/-! ## Every run -/

section
variable {s₀ s : Process} {evs : List (Op × Except Status Int)}

/-- Whatever is short enough is stored whole. -/
theorem storedName_whole {app : Bytes} {module_name : Option Bytes} {type : NR_stats_type} {n : Bytes}
    (h : storedName (some app) module_name type = some n)
    (hlen : (fullName app module_name type.name).length ≠ MAX_WHOLE_NAME + 1) :
    n = fullName app module_name type.name := by
  have happ : ({ started with app := some app } : Process).app = some app := rfl
  obtain ⟨hname, hlt⟩ := storedName_full happ h
  have hmax : MAX_WHOLE_NAME + 2 = NR_MAX_STATS_NAME := rfl
  rw [hname]
  exact List.take_of_length_le (by omega)

end

end Nrappkit.Stats
