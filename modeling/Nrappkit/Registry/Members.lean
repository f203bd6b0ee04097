import Nrappkit.Registry.Entries
import Nrappkit.Registry.LocalReads
/-!
# Members of C structures

The functions of `c2ru.c` for one member of a structure: a null pointer is not
stored, and what is not stored is read as a null pointer. A structure is stored
by one of them for each member, under the name of the structure.
-/
open Lib Nrappkit.Assoc

namespace Nrappkit.Registry

/-! ## The functions -/

section
variable {α : Type} (get : Reg → Bytes → Option (Except Status α)) (set : Reg → Bytes → α → Option (Status × Reg))

def NRGET2 (s : Reg) (parent child : Bytes) : Option (Except Status α) :=
  match NR_reg_make_registry parent child with
  | .error r => some (.error r)
  | .ok registry => get s registry

def NRGET (s : Reg) (parent child : Bytes) : Option (Except Status (Option α)) :=
  match nr_c2ru_make_registry parent child with
  | .error r => some (.error r)
  | .ok registry => (get s registry).map fun
    | .ok tmp => .ok (some tmp)
    | .error .R_NOT_FOUND => .ok none
    | .error r => .error r

def NRSET (s : Reg) (parent child : Bytes) : Option α → Option (Status × Reg)
  | none => some (.ok, s)
  | some data =>
    match nr_c2ru_make_registry parent child with
    | .error r => some (r, s)
    | .ok registry => set s registry data

end

def NR_reg_alloc2_string := NRGET2 NR_reg_alloc_string

def nr_c2ru_get_char := NRGET nr_reg_local_get_char
def nr_c2ru_get_uchar := NRGET nr_reg_local_get_uchar
def nr_c2ru_get_int2 := NRGET nr_reg_local_get_int2
def nr_c2ru_get_uint2 := NRGET nr_reg_local_get_uint2
def nr_c2ru_get_int4 := NRGET nr_reg_local_get_int4
def nr_c2ru_get_uint4 := NRGET nr_reg_local_get_uint4
def nr_c2ru_get_int8 := NRGET nr_reg_local_get_int8
def nr_c2ru_get_uint8 := NRGET nr_reg_local_get_uint8
def nr_c2ru_get_double := NRGET nr_reg_local_get_double
def nr_c2ru_get_string := NRGET NR_reg_alloc_string
def nr_c2ru_get_data := NRGET NR_reg_alloc_data

section
variable (beh : nr_reg_cb_info → UInt8)

def nr_c2ru_set_char := NRSET (nr_reg_local_set_char beh)
def nr_c2ru_set_uchar := NRSET (nr_reg_local_set_uchar beh)
def nr_c2ru_set_int2 := NRSET (nr_reg_local_set_int2 beh)
def nr_c2ru_set_uint2 := NRSET (nr_reg_local_set_uint2 beh)
def nr_c2ru_set_int4 := NRSET (nr_reg_local_set_int4 beh)
def nr_c2ru_set_uint4 := NRSET (nr_reg_local_set_uint4 beh)
def nr_c2ru_set_int8 := NRSET (nr_reg_local_set_int8 beh)
def nr_c2ru_set_uint8 := NRSET (nr_reg_local_set_uint8 beh)
def nr_c2ru_set_double := NRSET (nr_reg_local_set_double beh)
def nr_c2ru_set_string := NRSET (nr_reg_local_set_string beh)
def nr_c2ru_set_data := NRSET (nr_reg_local_set_bytes beh)

/-- The function for the type of a member; they all return 0 for a null pointer. -/
def set_member (s : Reg) (parent child : Bytes) : Option Arg → Option (Status × Reg)
  | none => some (.ok, s)
  | some (.scalar (._char v)) => nr_c2ru_set_char beh s parent child (some v)
  | some (.scalar (._uchar v)) => nr_c2ru_set_uchar beh s parent child (some v)
  | some (.scalar (._nr_int2 v)) => nr_c2ru_set_int2 beh s parent child (some v)
  | some (.scalar (._nr_uint2 v)) => nr_c2ru_set_uint2 beh s parent child (some v)
  | some (.scalar (._nr_int4 v)) => nr_c2ru_set_int4 beh s parent child (some v)
  | some (.scalar (._nr_uint4 v)) => nr_c2ru_set_uint4 beh s parent child (some v)
  | some (.scalar (._nr_int8 v)) => nr_c2ru_set_int8 beh s parent child (some v)
  | some (.scalar (._nr_uint8 v)) => nr_c2ru_set_uint8 beh s parent child (some v)
  | some (.scalar (._double v)) => nr_c2ru_set_double beh s parent child (some v)
  | some (.string v) => nr_c2ru_set_string beh s parent child (some v)
  | some (.bytes v) => nr_c2ru_set_data beh s parent child (some v)
  | some .registry => none

/-- A structure is stored member by member, up to the first that fails. -/
def set_members (parent : Bytes) : List (Bytes × Option Arg) → Reg → Option (Status × Reg)
  | [], s => some (.ok, s)
  | (child, v) :: rest, s =>
    match set_member beh s parent child v with
    | none => none
    | some (.ok, s) => set_members parent rest s
    | some (r, s) => some (r, s)

end

def get_member (s : Reg) (parent child : Bytes) : NR_REG_TYPE → Option (Except Status (Option Arg))
  | .CHAR => (nr_c2ru_get_char s parent child).map (·.map (·.map .scalar))
  | .UCHAR => (nr_c2ru_get_uchar s parent child).map (·.map (·.map .scalar))
  | .INT2 => (nr_c2ru_get_int2 s parent child).map (·.map (·.map .scalar))
  | .UINT2 => (nr_c2ru_get_uint2 s parent child).map (·.map (·.map .scalar))
  | .INT4 => (nr_c2ru_get_int4 s parent child).map (·.map (·.map .scalar))
  | .UINT4 => (nr_c2ru_get_uint4 s parent child).map (·.map (·.map .scalar))
  | .INT8 => (nr_c2ru_get_int8 s parent child).map (·.map (·.map .scalar))
  | .UINT8 => (nr_c2ru_get_uint8 s parent child).map (·.map (·.map .scalar))
  | .DOUBLE => (nr_c2ru_get_double s parent child).map (·.map (·.map .scalar))
  | .STRING => (nr_c2ru_get_string s parent child).map (·.map (·.map .string))
  | .BYTES => (nr_c2ru_get_data s parent child).map (·.map (·.map .bytes))
  | .REGISTRY => none

def get_members (s : Reg) (parent : Bytes) : List (Bytes × NR_REG_TYPE) → Option (Except Status (List (Option Arg)))
  | [] => some (.ok [])
  | (child, type) :: rest =>
    match get_member s parent child type with
    | none => none
    | some (.error r) => some (.error r)
    | some (.ok v) => (get_members s parent rest).map (·.map (v :: ·))

/-! ## Names of the members -/

/-- The name under which a member is stored. -/
def memberName (name child : Bytes) : Bytes := name ++ dot :: child.map childByte

section
variable {name child n : Bytes}

theorem make_member (hne : name ≠ []) (h : nr_c2ru_make_registry name child = .ok n) : n = memberName name child := by
  obtain ⟨-, -, -, rfl⟩ := make_registry_inv h
  simp [hne, memberName]

theorem member_parent : beforeLastDot (memberName name child) = some name := by
  refine beforeLastDot_some.2 ⟨child.map childByte, rfl, fun h => ?_⟩
  obtain ⟨c, -, hc⟩ := List.mem_map.1 h
  exact (childByte_legal c).2 hc

theorem member_ne : memberName name child ≠ name := fun h => by
  have hp : beforeLastDot (memberName name child) = some name := member_parent
  have hlen := beforeLastDot_length hp
  rw [h] at hlen
  exact Nat.lt_irrefl _ hlen

end

/-! ## What the members leave -/

section
variable {beh : nr_reg_cb_info → UInt8} {s s' : Reg} {name : Bytes}

theorem set_member_eq {child : Bytes} {v : Arg} (hv : v ≠ .registry) :
    set_member beh s name child (some v) = NRSET (set beh) s name child (some v) := by
  cases v with
  | scalar d => cases d <;> rfl
  | registry => exact absurd rfl hv
  | bytes b => rfl
  | string b => rfl

/-- What is created above a member. -/
def newDirs (s : Reg) (name : Bytes) : List Bytes := if s.map name = none then name :: newAncestors s name else []

theorem newAncestors_member (child : Bytes) : newAncestors s (memberName name child) = newDirs s name := by
  unfold newDirs
  cases hp : s.ptr name with
  | none => rw [newAncestors_absent member_parent hp, if_pos (map_none.2 hp)]
  | some q => rw [newAncestors_stored member_parent hp, if_neg (by simp [map_none, hp])]

theorem member_not_new (child : Bytes) : memberName name child ∉ newDirs s name := by
  rw [← newAncestors_member (s := s) child]
  exact fun h => Nat.lt_irrefl _ (newAncestors_ancestor h).length

/-- The member that is stored under a name. -/
def held (name : Bytes) (fs : List (Bytes × Option Arg)) (n : Bytes) : Option Arg :=
  fs.findSome? fun f => if memberName name f.1 = n then f.2 else none

theorem held_none {fs : List (Bytes × Option Arg)} {n : Bytes} (h : ∀ f ∈ fs, memberName name f.1 ≠ n) : held name fs n = none :=
  List.findSome?_eq_none_iff.2 fun f hf => if_neg (h f hf)

theorem held_member {fs : List (Bytes × Option Arg)} (hnodup : (fs.map fun f => memberName name f.1).Nodup)
    {f : Bytes × Option Arg} (hf : f ∈ fs) : held name fs (memberName name f.1) = f.2 := by
  induction fs with
  | nil => cases hf
  | cons g fs ih =>
    rw [List.map_cons, List.nodup_cons] at hnodup
    obtain ⟨hg, hnodup⟩ := hnodup
    rw [held, List.findSome?_cons]
    rcases List.mem_cons.1 hf with rfl | hf
    · rw [if_pos rfl]
      cases hv : f.2 with
      | some v => rfl
      | none => exact held_none fun g hg' he => hg (List.mem_map.2 ⟨g, hg', he⟩)
    · rw [if_neg fun he => hg (List.mem_map.2 ⟨f, hf, he.symm⟩)]
      exact ih hnodup hf

/-- A setter that returns 0 changes its name and what is above it. -/
theorem set_ok_frame (h : RInv s) {n : Bytes} {arg : Arg} (hst : set beh s n arg = some (.ok, s')) :
    RInv s' ∧ ∀ m ≠ n, ¬ Ancestor m n → s'.map m = s.map m := by
  have hsafe : Safe s (.set n arg) := safe_of_ok h hst
  rcases set_cases h hsafe hst with ⟨hne, -⟩ | ⟨p, node, -, -, -, -, hinv, hmap, -⟩ | ⟨-, -, -, -, hinv, hc⟩
  · exact absurd rfl hne
  · refine ⟨hinv, fun m hm _ => ?_⟩
    rw [hmap, Function.update_of_ne hm]
  · refine ⟨hinv, fun m hm hanc => ?_⟩
    rw [hc.map]
    dsimp only
    rw [if_neg hm, if_neg fun hin => hanc (newAncestors_ancestor hin)]

theorem set_members_frame {fs : List (Bytes × Option Arg)} (hne : name ≠ []) (h : RInv s)
    (hst : set_members beh name fs s = some (.ok, s')) :
    RInv s' ∧ ∀ n, covers name n = false → ¬ Ancestor n name → s'.map n = s.map n := by
  induction fs generalizing s with
  | nil =>
    cases hst
    exact ⟨h, fun _ _ _ => rfl⟩
  | cons f fs ih =>
    obtain ⟨child, v⟩ := f
    rw [set_members] at hst
    split at hst
    · cases hst
    · rename_i s₁ hone
      have hframe : RInv s₁ ∧ ∀ n, covers name n = false → ¬ Ancestor n name → s₁.map n = s.map n := by
        cases v with
        | none =>
          cases hone
          exact ⟨h, fun _ _ _ => rfl⟩
        | some arg =>
          by_cases harg : arg = .registry
          · subst harg
            cases hone
          rw [set_member_eq harg, NRSET] at hone
          split at hone
          · rename_i hmake
            cases hone
            exact absurd rfl (make_registry_error hmake)
          · rename_i n₁ hmake
            obtain rfl := make_member hne hmake
            obtain ⟨hinv, hother⟩ := set_ok_frame h hone
            refine ⟨hinv, fun n hc hanc => hother n ?_ fun hm => ?_⟩
            · rintro rfl
              rw [covers_iff.2 (.inr (.inr ((ancestor_iff member_parent).2 (.inl rfl))))] at hc
              cases hc
            · rcases (ancestor_iff member_parent).1 hm with rfl | hm
              · rw [covers_self] at hc
                cases hc
              · exact hanc hm
      obtain ⟨hinv, hrest⟩ := ih hframe.1 hst
      exact ⟨hinv, fun n hc hanc => (hrest n hc hanc).trans (hframe.2 n hc hanc)⟩
    · cases hst
      contradiction

/-- A setter that finds nothing and returns 0. -/
theorem set_ok_created (h : RInv s) {n : Bytes} (hnone : s.map n = none) {arg : Arg} (hst : set beh s n arg = some (.ok, s')) :
    RInv s' ∧ Created s n (arg.written none) s' := by
  have hsafe : Safe s (.set n arg) := safe_of_ok h hst
  rcases set_cases h hsafe hst with ⟨hne, -⟩ | ⟨p, node, hp, -⟩ | ⟨-, -, -, -, hinv, hc⟩
  · exact absurd rfl hne
  · rw [map_none, hp] at hnone
    cases hnone
  · exact ⟨hinv, hc⟩

/-- Where no member was stored, those that are not null are stored then, with
what was missing above them, and nothing else changes. -/
theorem set_members_map {fs : List (Bytes × Option Arg)} (hne : name ≠ []) (h : RInv s)
    (hnodup : (fs.map fun f => memberName name f.1).Nodup) (hnone : ∀ f ∈ fs, s.map (memberName name f.1) = none)
    (hst : set_members beh name fs s = some (.ok, s')) :
    RInv s' ∧ ∀ n, s'.map n = (held name fs n).elim
      (if (∃ f ∈ fs, f.2 ≠ none) ∧ n ∈ newDirs s name then some (some .registry) else s.map n)
      fun arg => some (some (arg.written none)) := by
  induction fs generalizing s with
  | nil =>
    cases hst
    exact ⟨h, fun n => by simp [held]⟩
  | cons f fs ih =>
    obtain ⟨child, v⟩ := f
    rw [List.map_cons, List.nodup_cons] at hnodup
    obtain ⟨hchild, hnodup⟩ := hnodup
    have hother : ∀ f ∈ fs, memberName name f.1 ≠ memberName name child := fun f hf he =>
      hchild (List.mem_map.2 ⟨f, hf, he⟩)
    have hrest : ∀ f ∈ fs, s.map (memberName name f.1) = none := fun f hf => hnone f (List.mem_cons_of_mem _ hf)
    rw [set_members] at hst
    cases v with
    | none =>
      obtain ⟨hinv, hmap⟩ := ih h hnodup hrest hst
      refine ⟨hinv, fun n => ?_⟩
      have hheld : held name ((child, none) :: fs) n = held name fs n := by simp [held]
      have hsome : (∃ f ∈ (child, none) :: fs, f.2 ≠ none) ↔ ∃ f ∈ fs, f.2 ≠ none := by
        rw [List.exists_mem_cons_iff]
        simp
      rw [hmap n, hheld]
      simp only [hsome]
    | some arg =>
      by_cases harg : arg = .registry
      · subst harg
        cases hst
      rw [set_member_eq harg, NRSET] at hst
      split at hst
      · cases hst
      · rename_i s₁ hone
        split at hone
        · rename_i hmake
          cases hone
          exact absurd rfl (make_registry_error hmake)
        · rename_i n₁ hmake
          obtain rfl := make_member hne hmake
          obtain ⟨hinv₁, hc⟩ := set_ok_created h (hnone _ List.mem_cons_self) hone
          have hmap₁ : ∀ n, s₁.map n = if n = memberName name child then some (some (arg.written none))
              else if n ∈ newDirs s name then some (some .registry) else s.map n := by
            intro n
            rw [hc.map, newAncestors_member]
          have hdirs : newDirs s₁ name = [] := by
            refine if_neg fun hnil => ?_
            rw [hmap₁, if_neg (Ne.symm member_ne)] at hnil
            split at hnil
            · cases hnil
            · rename_i hnot
              exact hnot (by simp [newDirs, hnil])
          have hnone₁ : ∀ f ∈ fs, s₁.map (memberName name f.1) = none := by
            intro f hf
            rw [hmap₁, if_neg (hother f hf), if_neg (member_not_new f.1), hrest f hf]
          obtain ⟨hinv, hmap⟩ := ih hinv₁ hnodup hnone₁ hst
          refine ⟨hinv, fun n => ?_⟩
          have hsome : ∃ f ∈ (child, some arg) :: fs, f.2 ≠ none := ⟨_, List.mem_cons_self, Option.some_ne_none _⟩
          rw [hmap n, hdirs]
          simp only [List.not_mem_nil, and_false, if_false, hsome, true_and]
          rw [hmap₁]
          by_cases hn : n = memberName name child
          · subst hn
            rw [held_none hother, held, List.findSome?_cons, if_pos rfl]
            simp
          · rw [if_neg hn, held, held, List.findSome?_cons, if_neg (Ne.symm hn)]
      · cases hst
        contradiction

end

end Nrappkit.Registry
