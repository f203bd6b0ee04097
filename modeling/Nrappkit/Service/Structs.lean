import Nrappkit.Registry.Members
import Nrappkit.Service.Store
/-!
# Lists of structures in the registry

A client keeps a list of C structures in the registry: `nr_c2ru_set_children`
stores them, each with the functions of `c2ru.c` for its members, and
`nr_c2ru_get_children` reads them back. The list survives where its names fit
and only directories are in its way.
-/
open Lib Nrappkit.Registry Nrappkit.Assoc Nrappkit.Control

namespace Nrappkit.Service

/-! ## What a getter finds -/

section
variable {s s' : Reg} {name : Bytes}

/-- What every getter finds under a name. -/
def found (s : Reg) (name : Bytes) : Option (Except Status Value) :=
  if nr_reg_is_valid name ≠ .ok then some (.error (nr_reg_is_valid name))
  else (s.map name).elim (some (.error .R_NOT_FOUND)) (·.map .ok)

theorem found_cases (h : RInv s) (name : Bytes) :
    (∃ r, found s name = some (.error r) ∧ (∀ type, nr_reg_fetch_node s name type = some (.error r)) ∧
      nr_reg_local_get_length s name = some (.error r)) ∨
    (found s name = none ∧ (∀ type, nr_reg_fetch_node s name type = none) ∧ nr_reg_local_get_length s name = none) ∨
    ∃ p node, s.ptr name = some p ∧ s.nodes p = some node ∧ node.Ok ∧ found s name = some (.ok node.value) := by
  by_cases hv : nr_reg_is_valid name = .ok
  · have hfound : found s name = (s.map name).elim (some (.error .R_NOT_FOUND)) (·.map .ok) := if_neg (not_not.2 hv)
    have hlen := h.fetch_ptr name
    cases hp : s.ptr name with
    | none =>
      rw [hp] at hlen
      refine .inl ⟨.R_NOT_FOUND, by rw [hfound, map_none.2 hp]; rfl, fun type => by rw [h.fetch_node hv, hp], ?_⟩
      rw [nr_reg_local_get_length, if_neg (not_not.2 hv), hlen]
    | some p =>
      rw [hp] at hlen
      cases hn : s.nodes p with
      | none =>
        refine .inr (.inl ⟨?_, fun type => ?_, ?_⟩)
        · rw [hfound, Reg.map, hp, Option.map_some, hn]
          rfl
        · rw [h.fetch_node hv, hp]
          simp [hn]
        · rw [nr_reg_local_get_length, if_neg (not_not.2 hv), hlen]
          simp [hn]
      | some node =>
        have hm : s.map name = some (some node.value) := by rw [Reg.map, hp, Option.map_some, hn, Option.map_some]
        obtain ⟨p', node', hp', hn', -, -, hok⟩ := h.node_of_map hm
        cases hp.symm.trans hp'
        cases hn.symm.trans hn'
        exact .inr (.inr ⟨p, node, rfl, hn, hok, by rw [hfound, hm]; rfl⟩)
  · refine .inl ⟨_, if_pos hv, fetch_node_invalid hv, if_pos hv⟩

theorem get_found (h : RInv s) (type : NR_REG_TYPE) : nr_reg_get s name type = (found s name).map (·.bind fun v =>
    if v.type ≠ type then .error .R_FAILED else match v with | .scalar d => .ok d | _ => .error .R_INTERNAL) := by
  rcases found_cases h name with ⟨r, hf, hfetch, -⟩ | ⟨hf, hfetch, -⟩ | ⟨p, node, hp, hn, -, hf⟩
  · rw [nr_reg_get, hfetch, hf]
    rfl
  · rw [nr_reg_get, hfetch, hf]
    rfl
  · rw [nr_reg_get, fetch_stored h hp hn, hf]
    by_cases ht : node.type = type
    · subst ht
      cases node <;> simp [Except.bind, Node.value, Value.type, Node.type]
    · have htv : node.value.type ≠ type := by rwa [Node.value_type]
      simp [Except.bind, ht, htv]

theorem get_array_found (h : RInv s) (string : Bool) (size : Nat) :
    nr_reg_get_array s name string size = (found s name).map (·.bind fun v =>
      if v.type ≠ arrayType string then .error .R_FAILED else if size < v.size then .error .R_BAD_ARGS
      else match v with | .array _ content => .ok content | _ => .ok []) := by
  rcases found_cases h name with ⟨r, hf, hfetch, -⟩ | ⟨hf, hfetch, -⟩ | ⟨p, node, hp, hn, hok, hf⟩
  · rw [nr_reg_get_array, hfetch, hf]
    rfl
  · rw [nr_reg_get_array, hfetch, hf]
    rfl
  · rw [nr_reg_get_array, fetch_stored h hp hn, hf]
    by_cases ht : node.type = arrayType string
    · cases node with
      | scalar v => cases v <;> cases string <;> cases ht
      | registry => cases string <;> cases ht
      | array string' length data =>
        have hlen : (data.take length.toNat).length = length.toNat := by
          rw [List.length_take]
          exact Nat.min_eq_left hok
        have hle : length.toNat ≤ data.length := hok
        have hstring : string' = string := by
          cases string <;> cases string' <;> first | rfl | cases ht
        subst hstring
        by_cases hs : size < length.toNat <;>
          simp [Except.bind, Node.type, Node.value, Value.type, Value.size, hlen, hle, hs]
    · have htv : node.value.type ≠ arrayType string := by rwa [Node.value_type]
      simp [Except.bind, ht, htv]

theorem length_found (h : RInv s) : nr_reg_local_get_length s name = (found s name).map (·.map (Store.lengthOf name)) := by
  rcases found_cases h name with ⟨r, hf, -, hlen⟩ | ⟨hf, -, hlen⟩ | ⟨p, node, hp, hn, hok, hf⟩
  · rw [hlen, hf]
    rfl
  · rw [hlen, hf]
    rfl
  · rw [get_length_stored h hp hn, hf, lengthOf_value name hok]
    rfl

/-! ## Members -/

/-- The value of a member, by its type. -/
def fetch (s : Reg) (name : Bytes) : NR_REG_TYPE → Option (Except Status Arg)
  | .STRING => (NR_reg_alloc_string s name).map (·.map .string)
  | .BYTES => (NR_reg_alloc_data s name).map (·.map .bytes)
  | type => (nr_reg_get s name type).map (·.map .scalar)

theorem NRGET_map {α β : Type} (get : Reg → Bytes → Option (Except Status α)) (f : α → β) (parent child : Bytes) :
    (NRGET get s parent child).map (·.map (·.map f)) = NRGET (fun s name => (get s name).map (·.map f)) s parent child := by
  unfold NRGET
  cases nr_c2ru_make_registry parent child with
  | error r => rfl
  | ok registry =>
    dsimp only
    rw [Option.map_map, Option.map_map]
    congr 1
    funext x
    cases x with
    | ok v => rfl
    | error r => cases r <;> rfl

theorem get_member_eq {type : NR_REG_TYPE} (ht : type ≠ .REGISTRY) (parent child : Bytes) :
    get_member s parent child type = NRGET (fun s name => fetch s name type) s parent child := by
  cases type with
  | REGISTRY => exact absurd rfl ht
  | _ => exact NRGET_map ..

/-- The getters look at what is found, and at nothing else. -/
theorem length_congr (h : RInv s) (h' : RInv s') (hm : s'.map name = s.map name) :
    nr_reg_local_get_length s' name = nr_reg_local_get_length s name := by
  rw [length_found h', length_found h, found, found, hm]

theorem get_array_congr (h : RInv s) (h' : RInv s') (hm : s'.map name = s.map name) (string : Bool) (size : Nat) :
    nr_reg_get_array s' name string size = nr_reg_get_array s name string size := by
  rw [get_array_found h', get_array_found h, found, found, hm]

theorem alloc_string_congr (h : RInv s) (h' : RInv s') (hm : s'.map name = s.map name) :
    NR_reg_alloc_string s' name = NR_reg_alloc_string s name := by
  simp only [NR_reg_alloc_string, nr_reg_local_get_string, get_array_congr h h' hm, length_congr h h' hm]

theorem fetch_congr (h : RInv s) (h' : RInv s') (hm : s'.map name = s.map name) (type : NR_REG_TYPE) :
    fetch s' name type = fetch s name type := by
  have hget : ∀ type, nr_reg_get s' name type = nr_reg_get s name type := fun type => by
    rw [get_found h', get_found h, found, found, hm]
  cases type with
  | STRING => simp only [fetch, alloc_string_congr h h' hm]
  | BYTES => simp only [fetch, NR_reg_alloc_data, nr_reg_local_get_bytes, get_array_congr h h' hm, length_congr h h' hm]
  | _ => simp only [fetch, hget]

/-- A value that a new node holds as it is given: no negative zero, and no
string with a zero in it. -/
def Storable : Arg → Prop
  | .scalar d => stored d = d
  | .registry => False
  | .bytes b => b.length < 2 ^ 32
  | .string b => 0 ∉ b ∧ b.length + 1 < 2 ^ 32

theorem fetch_written (h : RInv s) {arg : Arg} (harg : Storable arg)
    (hm : s.map name = some (some (arg.written none))) : fetch s name arg.type = some (.ok arg) := by
  cases arg with
  | scalar d =>
    have hd : stored d = d := harg
    have hm' : s.map name = some (some (.scalar d)) := by
      rw [hm]
      exact congrArg (fun v => some (some (Value.scalar v))) hd
    have hv := (h.node_of_map hm').choose_spec.choose_spec.2.2.2.1
    have hget : nr_reg_get s name d.type = some (.ok d) := by
      rw [get_found h, found, if_neg (not_not.2 hv), hm']
      simp [Except.bind, Value.type]
    have hfetch : fetch s name (Arg.scalar d).type = (nr_reg_get s name d.type).map (·.map .scalar) := by
      cases d <;> rfl
    rw [hfetch, hget]
    rfl
  | registry => exact harg.elim
  | bytes b =>
    have hm' : s.map name = some (some (.array false b)) := by
      rw [hm, Arg.written, trunc_eq_self.2 harg]
    simp [fetch, Arg.type, alloc_data_stored h hm', Except.map]
  | string b =>
    have hm' : s.map name = some (some (.array true (b ++ [0]))) := by
      have hlen : (b ++ [0]).length < 2 ^ 32 := by simpa using harg.2
      rw [hm, Arg.written, trunc_eq_self.2 hlen]
    simp [fetch, Arg.type, alloc_string_stored h harg.1 hm', Except.map]

theorem fetch_absent (h : RInv s) (hv : nr_reg_is_valid name = .ok) (hm : s.map name = none) (type : NR_REG_TYPE) :
    fetch s name type = some (.error .R_NOT_FOUND) := by
  have hf : found s name = some (.error .R_NOT_FOUND) := by rw [found, if_neg (not_not.2 hv), hm]; rfl
  have hlen : nr_reg_local_get_length s name = some (.error .R_NOT_FOUND) := by rw [length_found h, hf]; rfl
  cases type with
  | STRING => simp [fetch, NR_reg_alloc_string, hlen, Except.map]
  | BYTES => simp [fetch, NR_reg_alloc_data, hlen, Except.map]
  | _ => simp [fetch, get_found h, hf, Except.bind, Except.map]

end

/-! ## Structures -/

/-- The members of a structure with their types. Their names stay apart in the
registry. -/
structure Shape where
  members : List (Bytes × NR_REG_TYPE)
  apart : (members.map fun m => m.1.map childByte).Nodup
  typed : ∀ m ∈ members, m.2 ≠ .REGISTRY

/-- A value for each member, or a null pointer; not all are null. -/
structure Shape.Fits (shape : Shape) (values : List (Option Arg)) : Prop where
  typed : List.Forall₂ (fun m v => ∀ arg, v = some arg → arg.type = m.2 ∧ Storable arg) shape.members values
  stored : ∃ arg, some arg ∈ values

/-- The names of the members can be made. -/
def Shape.Room (shape : Shape) (name : Bytes) : Prop := ∀ m ∈ shape.members, ∃ n, nr_c2ru_make_registry name m.1 = .ok n

def set_struct (beh : nr_reg_cb_info → UInt8) (shape : Shape) (s : Reg) (name : Bytes) (values : List (Option Arg)) :
    Option (Status × Reg) :=
  set_members beh name ((shape.members.zip values).map fun x => (x.1.1, x.2)) s

def get_struct (shape : Shape) (s : Reg) (name : Bytes) : Option (Except Status (List (Option Arg))) :=
  get_members s name shape.members

section
variable {beh : nr_reg_cb_info → UInt8} {shape : Shape} {s s' : Reg} {name : Bytes} {values : List (Option Arg)}

theorem Shape.Fits.names (h : shape.Fits values) :
    ((shape.members.zip values).map fun x => (x.1.1, x.2)).map (fun f => memberName name f.1) =
      shape.members.map fun m => memberName name m.1 := by
  have hfst : (shape.members.zip values).map Prod.fst = shape.members := List.map_fst_zip h.typed.length_eq.le
  nth_rewrite 2 [← hfst]
  simp only [List.map_map]
  rfl

theorem Shape.apart_names (shape : Shape) (name : Bytes) : (shape.members.map fun m => memberName name m.1).Nodup := by
  have hsplit : (shape.members.map fun m => memberName name m.1) =
      (shape.members.map fun m => m.1.map childByte).map fun c => name ++ dot :: c := by
    simp [List.map_map, Function.comp_def, memberName]
  rw [hsplit]
  exact shape.apart.map fun a b h => (List.cons.inj (List.append_cancel_left h)).2

theorem get_members_ok {ms : List (Bytes × NR_REG_TYPE)} (h : List.Forall₂ (fun m v => get_member s name m.1 m.2 = some (.ok v)) ms values) :
    get_members s name ms = some (.ok values) := by
  induction h with
  | nil => rfl
  | @cons m v ms vs hm _ ih =>
    obtain ⟨child, type⟩ := m
    rw [get_members, hm]
    dsimp only
    rw [ih]
    rfl

theorem get_members_congr (h : RInv s) (h' : RInv s') {ms : List (Bytes × NR_REG_TYPE)}
    (hall : ∀ n, covers name n = true → s'.map n = s.map n) (htyped : ∀ m ∈ ms, m.2 ≠ .REGISTRY) :
    get_members s' name ms = get_members s name ms := by
  induction ms with
  | nil => rfl
  | cons m ms ih =>
    obtain ⟨child, type⟩ := m
    have ht : type ≠ .REGISTRY := htyped _ List.mem_cons_self
    have hone : get_member s' name child type = get_member s name child type := by
      rw [get_member_eq ht, get_member_eq ht, NRGET, NRGET]
      cases hmake : nr_c2ru_make_registry name child with
      | error r => rfl
      | ok n =>
        have hc : covers name n = true := by
          by_cases hne : name = []
          · exact covers_iff.2 (.inl hne)
          · obtain rfl := make_member hne hmake
            exact covers_iff.2 (.inr (.inr ((ancestor_iff member_parent).2 (.inl rfl))))
        dsimp only
        rw [fetch_congr h h' (hall _ hc)]
    rw [get_members, get_members, hone, ih fun m hm => htyped m (List.mem_cons_of_mem _ hm)]

/-- What was stored of a structure is read back. -/
theorem struct_read (hne : name ≠ []) (h : RInv s) (hfits : shape.Fits values) (hroom : shape.Room name)
    (hempty : ∀ n, covers name n = true → s.map n = none) (hst : set_struct beh shape s name values = some (.ok, s')) :
    get_struct shape s' name = some (.ok values) := by
  have hnodup : (((shape.members.zip values).map fun x => (x.1.1, x.2)).map fun f => memberName name f.1).Nodup := by
    rw [hfits.names]
    exact shape.apart_names name
  have hbelow : ∀ child, s.map (memberName name child) = none := fun child =>
    hempty _ (covers_iff.2 (.inr (.inr ((ancestor_iff member_parent).2 (.inl rfl)))))
  obtain ⟨hinv, hmap⟩ := set_members_map hne h hnodup (fun f _ => hbelow f.1) hst
  refine get_members_ok (List.forall₂_iff_zip.2 ⟨hfits.typed.length_eq, fun {m v} hmem => ?_⟩)
  have hm : m ∈ shape.members := (List.of_mem_zip hmem).1
  obtain ⟨n, hmake⟩ := hroom m hm
  obtain rfl := make_member hne hmake
  have hheld := held_member hnodup (List.mem_map.2 ⟨(m, v), hmem, rfl⟩)
  dsimp only at hheld
  rw [get_member_eq (shape.typed m hm), NRGET, hmake]
  dsimp only
  cases v with
  | none =>
    have hnone : s'.map (memberName name m.1) = none := by
      rw [hmap, hheld, Option.elim_none, if_neg fun hnew => member_not_new m.1 hnew.2, hbelow]
    rw [fetch_absent hinv (make_registry_valid hmake).2 hnone]
    rfl
  | some arg =>
    obtain ⟨htype, harg⟩ := (List.forall₂_iff_zip.1 hfits.typed).2 hmem arg rfl
    have hsome : s'.map (memberName name m.1) = some (some (arg.written none)) := by rw [hmap, hheld, Option.elim_some]
    rw [← htype, fetch_written hinv harg hsome]
    rfl

/-- A structure that is stored has a directory of its own. -/
theorem struct_node (hne : name ≠ []) (h : RInv s) (hfits : shape.Fits values)
    (hempty : ∀ n, covers name n = true → s.map n = none) (hst : set_struct beh shape s name values = some (.ok, s')) :
    ∀ n, n = name ∨ Ancestor n name → s'.map n = if n ∈ name :: newAncestors s name then some (some .registry) else s.map n := by
  have hnodup : (((shape.members.zip values).map fun x => (x.1.1, x.2)).map fun f => memberName name f.1).Nodup := by
    rw [hfits.names]
    exact shape.apart_names name
  have hbelow : ∀ child, s.map (memberName name child) = none := fun child =>
    hempty _ (covers_iff.2 (.inr (.inr ((ancestor_iff member_parent).2 (.inl rfl)))))
  obtain ⟨-, hmap⟩ := set_members_map hne h hnodup (fun f _ => hbelow f.1) hst
  intro n hn
  have hlen : n.length ≤ name.length := by
    rcases hn with rfl | hn
    · exact Nat.le_refl _
    · exact hn.length.le
  have hheld : held name ((shape.members.zip values).map fun x => (x.1.1, x.2)) n = none := by
    refine held_none fun f _ he => ?_
    have hp : beforeLastDot (memberName name f.1) = some name := member_parent
    have hlt := beforeLastDot_length hp
    rw [he] at hlt
    exact absurd hlt (Nat.not_lt.2 hlen)
  have hsome : ∃ f ∈ (shape.members.zip values).map fun x => (x.1.1, x.2), f.2 ≠ none := by
    obtain ⟨arg, harg⟩ := hfits.stored
    have hsnd : (shape.members.zip values).map Prod.snd = values := List.map_snd_zip hfits.typed.length_eq.ge
    rw [← hsnd] at harg
    obtain ⟨x, hx, hval⟩ := List.mem_map.1 harg
    exact ⟨_, List.mem_map.2 ⟨x, hx, rfl⟩, by simp [hval]⟩
  rw [hmap, hheld, Option.elim_none, newDirs, if_pos (hempty name (covers_self name))]
  simp only [hsome, true_and]

open Classical in
/-- The setter where a list uses it. -/
noncomputable def set_fitting (beh : nr_reg_cb_info → UInt8) (shape : Shape) (s : Reg) (name : Bytes) (values : List (Option Arg)) :
    Option (Status × Reg) :=
  if name ≠ [] ∧ shape.Fits values ∧ shape.Room name then set_struct beh shape s name values else none

theorem set_fitting_some {r : Status} (hst : set_fitting beh shape s name values = some (r, s')) :
    (name ≠ [] ∧ shape.Fits values ∧ shape.Room name) ∧ set_struct beh shape s name values = some (r, s') := by
  unfold set_fitting at hst
  split at hst
  · exact ⟨‹_›, hst⟩
  · cases hst

/-- The two functions for a structure are what the lists ask of them. -/
theorem struct_inverse (beh : nr_reg_cb_info → UInt8) (shape : Shape) :
    Inverse (set_fitting beh shape) (get_struct shape) where
  inv h hst :=
    have ⟨⟨hne, _⟩, hst⟩ := set_fitting_some hst
    (set_members_frame hne h hst).1
  stores := by
    intro s s' name values h hempty hst
    obtain ⟨⟨hne, hfits, hroom⟩, hst⟩ := set_fitting_some hst
    refine ⟨?_, ?_⟩
    · rw [struct_node hne h hfits hempty hst name (.inl rfl), if_pos List.mem_cons_self]
      exact Option.some_ne_none _
    · exact struct_read hne h hfits hroom hempty hst
  parent := by
    intro s s' name values p h hempty hst hp
    obtain ⟨⟨hne, hfits, -⟩, hst⟩ := set_fitting_some hst
    have hpn : p ≠ name := fun he => Nat.lt_irrefl _ (he ▸ beforeLastDot_length hp)
    rw [struct_node hne h hfits hempty hst p (.inr ((ancestor_iff hp).2 (.inl rfl)))]
    cases hptr : s.ptr p with
    | none => simp [newAncestors_absent hp hptr, map_none.2 hptr]
    | some q => simp [newAncestors_stored hp hptr, hpn, Reg.map, hptr]
  frame h hst :=
    have ⟨⟨hne, _⟩, hst⟩ := set_fitting_some hst
    (set_members_frame hne h hst).2 _
  local_get h h' hall := get_members_congr h h' hall shape.typed

end

/-! ## Storing a list -/

/-- A directory can be at the name: what is there and above is one or absent. -/
def Open (s : Reg) (name : Bytes) : Prop :=
  ∀ m, m = name ∨ Ancestor m name → nr_reg_is_valid m = .ok ∧ (s.map m = none ∨ s.map m = some (some .registry))

/-- The store behind a registry in order. -/
theorem exists_refines {s : Reg} (h : Sound s) (hc : CInv s.cbs) : ∃ a, Refines s a := by
  have hvalue : ∀ n : Bytes, s.map n = ((s.map n).bind id).map some := by
    intro n
    have hlive := h.2.live n
    rcases hn : s.map n with - | (- | v)
    · rfl
    · exact absurd hn hlive
    · rfl
  have hdir : ∀ n : Bytes, s.map n = some (some .registry) → (s.map n).bind id = some .registry := fun n hn => by
    rw [hn]
    rfl
  refine ⟨⟨fun n => (s.map n.bytes).bind id, hdir _ h.2.root, fun {m n} hn hlt => hdir _ ?_⟩, h, hc, fun n => hvalue n.bytes⟩
  rcases Name.lt_iff.1 hlt with ⟨rfl, -⟩ | hanc
  · exact h.2.root
  · refine h.2.up n.bytes m.bytes (fun hnone => hn ?_) hanc
    rw [hnone]
    rfl

section
variable {shape : Shape} {s s' : Reg} {name : Bytes} {values : List (Option Arg)}

/-- Below a name where a directory can be, a new value is stored. -/
theorem set_below (h : Sound s) (hc : CInv s.cbs) (hopen : Open s name) {child : Bytes}
    (hv : nr_reg_is_valid (memberName name child) = .ok) (hnone : s.map (memberName name child) = none) (arg : Arg) :
    ∃ s', Registry.set idle s (memberName name child) arg = some (.ok, s') ∧ Sound s' ∧ CInv s'.cbs := by
  obtain ⟨a, ha⟩ := exists_refines h hc
  have hpf : parentsFail s (memberName name child) = false :=
    (parentsFail_iff h).2 fun m hm => hopen m ((ancestor_iff member_parent).1 hm)
  have hsafe : Proper s (.set (memberName name child) arg) := by
    show strands s (memberName name child) = false
    simp [strands, hpf]
  obtain ⟨ans, s', hcall⟩ := ha.returns hsafe
  obtain ⟨⟨r, s₁⟩, hst, heq⟩ := Option.map_eq_some_iff.1 hcall
  cases heq
  have hout : Registry.Outcome s _ (arg.written none) (Registry.set idle s _ arg) := set_new h.1 hv (map_none.1 hnone) arg
  have hr : r = .ok := by
    by_contra hne
    rw [hout.fail r _ hst hne] at hpf
    cases hpf
  subst hr
  obtain ⟨-, ha'⟩ := ha.set hsafe hst
  exact ⟨_, hst, ha'.sound, ha'.cbs⟩

theorem members_stored {fs : List (Bytes × Option Arg)} (hne : name ≠ []) (h : Sound s) (hc : CInv s.cbs)
    (hopen : Open s name) (hnodup : (fs.map fun f => memberName name f.1).Nodup)
    (hmake : ∀ f ∈ fs, ∃ n, nr_c2ru_make_registry name f.1 = .ok n) (hreg : ∀ f ∈ fs, f.2 ≠ some .registry)
    (hnone : ∀ f ∈ fs, s.map (memberName name f.1) = none) :
    ∃ s', set_members idle name fs s = some (.ok, s') ∧ Sound s' ∧ CInv s'.cbs := by
  induction fs generalizing s with
  | nil => exact ⟨s, rfl, h, hc⟩
  | cons f fs ih =>
    obtain ⟨child, v⟩ := f
    rw [List.map_cons, List.nodup_cons] at hnodup
    obtain ⟨hchild, hnodup⟩ := hnodup
    have hmakes : ∀ f ∈ fs, ∃ n, nr_c2ru_make_registry name f.1 = .ok n := fun f hf => hmake f (List.mem_cons_of_mem _ hf)
    have hregs : ∀ f ∈ fs, f.2 ≠ some .registry := fun f hf => hreg f (List.mem_cons_of_mem _ hf)
    have hrest : ∀ f ∈ fs, s.map (memberName name f.1) = none := fun f hf => hnone f (List.mem_cons_of_mem _ hf)
    rw [set_members]
    cases v with
    | none => exact ih h hc hopen hnodup hmakes hregs hrest
    | some arg =>
      have harg : arg ≠ .registry := fun he => hreg _ List.mem_cons_self (congrArg some he)
      obtain ⟨n, hn⟩ := hmake _ List.mem_cons_self
      dsimp only at hn
      obtain rfl := make_member hne hn
      obtain ⟨s₁, hst, h₁, hc₁⟩ := set_below h hc hopen (make_registry_valid hn).2 (hnone _ List.mem_cons_self) arg
      rw [set_member_eq harg, NRSET, hn]
      dsimp only
      rw [hst]
      have hmap := (set_ok_created h.1 (hnone _ List.mem_cons_self) hst).2.map
      refine ih h₁ hc₁ (fun m hm => ?_) hnodup hmakes hregs fun f hf => ?_
      · obtain ⟨hv, hor⟩ := hopen m hm
        have hnm : m ≠ memberName name child := by
          rintro rfl
          exact Nat.lt_irrefl _ ((ancestor_iff member_parent).2 hm).length
        refine ⟨hv, ?_⟩
        rw [hmap]
        dsimp only
        rw [if_neg hnm]
        split
        · exact .inr rfl
        · exact hor
      · rw [hmap]
        dsimp only
        rw [if_neg fun he => hchild (List.mem_map.2 ⟨f, hf, he⟩), newAncestors_member, if_neg (member_not_new f.1), hrest f hf]

theorem struct_stored (hne : name ≠ []) (h : Sound s) (hc : CInv s.cbs) (hopen : Open s name) (hfits : shape.Fits values)
    (hroom : shape.Room name) (hempty : ∀ n, covers name n = true → s.map n = none) :
    ∃ s', set_struct idle shape s name values = some (.ok, s') ∧ Sound s' ∧ CInv s'.cbs := by
  have hmem : ∀ f ∈ (shape.members.zip values).map fun x => (x.1.1, x.2), ∃ m v, (m, v) ∈ shape.members.zip values ∧ f = (m.1, v) := by
    intro f hf
    obtain ⟨⟨m, v⟩, hx, rfl⟩ := List.mem_map.1 hf
    exact ⟨m, v, hx, rfl⟩
  refine members_stored hne h hc hopen ?_ (fun f hf => ?_) (fun f hf => ?_) fun f _ => ?_
  · rw [hfits.names]
    exact shape.apart_names name
  · obtain ⟨m, v, hx, rfl⟩ := hmem f hf
    exact hroom m (List.of_mem_zip hx).1
  · obtain ⟨m, v, hx, rfl⟩ := hmem f hf
    intro hv
    exact ((List.forall₂_iff_zip.1 hfits.typed).2 hx _ hv).2
  · exact hempty _ (covers_iff.2 (.inr (.inr ((ancestor_iff member_parent).2 (.inl rfl)))))

end

section
variable {shape : Shape} {s s' : Reg} {parent child registry : Bytes} {list : List (List (Option Arg))} {i : Nat}

/-- The name made for a position. -/
theorem make_numeral (hne : registry ≠ []) (hv : nr_reg_is_valid registry = .ok)
    (hlen : registry.length + (numeral 10 i).length + 2 ≤ NR_REG_MAX_NR_REGISTRY_LEN) :
    NR_reg_make_registry registry (numeral 10 i) = .ok (entryName registry i) := by
  have hbytes : (numeral 10 i).map childByte = numeral 10 i := by
    nth_rewrite 2 [← List.map_id (numeral 10 i)]
    exact List.map_congr_left fun c hc => (digit_facts hc).2.1
  have hhead : (numeral 10 i).head? ≠ some dot := fun h => (digit_facts (List.mem_of_mem_head? h)).1 rfl
  have hlast : ¬ (numeral 10 i = [] ∨ (numeral 10 i).getLast? = some dot) := by
    rintro (h | h)
    · exact numeral_ne_nil h
    · exact (digit_facts (List.mem_of_getLast? h)).1 rfl
  rw [NR_reg_make_registry, if_neg (not_not.2 hv), if_neg hhead, if_neg (Nat.not_lt.2 hlen), if_neg hlast, if_neg hne,
    hbytes, entryName]
  simp

/-- The name of an entry fits where a member of it does. -/
theorem Shape.Room.entry (hroom : shape.Room (entryName registry i)) (hmembers : shape.members ≠ []) (hne : registry ≠ [])
    (hv : nr_reg_is_valid registry = .ok) : nr_reg_is_valid (entryName registry i) = .ok ∧
      nr_c2ru_make_registry registry (snprintf NR_REG_MAX_NR_REGISTRY_LEN (numeral 10 i)) = .ok (entryName registry i) := by
  obtain ⟨m, ms, hms⟩ := List.exists_cons_of_ne_nil hmembers
  obtain ⟨n, hn⟩ := hroom m (by simp [hms])
  obtain ⟨hvalid, hlen, -, -⟩ := make_registry_inv hn
  have hlength : (entryName registry i).length = registry.length + (numeral 10 i).length + 1 := by
    simp [entryName]
    omega
  rw [hlength, NR_REG_MAX_NR_REGISTRY_LEN] at hlen
  have hwhole : snprintf NR_REG_MAX_NR_REGISTRY_LEN (numeral 10 i) = numeral 10 i :=
    List.take_of_length_le (by rw [NR_REG_MAX_NR_REGISTRY_LEN]; omega)
  rw [hwhole]
  exact ⟨hvalid, make_numeral hne hv (by rw [NR_REG_MAX_NR_REGISTRY_LEN]; omega)⟩

theorem entries_fitting {beh : nr_reg_cb_info → UInt8} (hne : registry ≠ []) (hfits : ∀ values ∈ list, shape.Fits values)
    (hroom : ∀ j, i ≤ j → j < i + list.length → shape.Room (entryName registry j)) (s : Reg) :
    set_entries (set_fitting beh shape) none registry s i list = set_entries (set_struct beh shape) none registry s i list := by
  induction list generalizing i s with
  | nil => rfl
  | cons values list ih =>
    rw [List.length_cons] at hroom
    rw [set_entries, set_entries]
    dsimp only [Option.map_none]
    split
    · rfl
    · rename_i name hmake
      obtain rfl := make_entryName hne hmake
      have hnil : entryName registry i ≠ [] := by simp [entryName]
      have hsame : ∀ s, set_fitting beh shape s (entryName registry i) values = set_struct beh shape s (entryName registry i) values :=
        fun s => if_pos ⟨hnil, hfits _ List.mem_cons_self, hroom i (Nat.le_refl _) (by omega)⟩
      have hrest : ∀ s, set_entries (set_fitting beh shape) none registry s (i + 1) list =
          set_entries (set_struct beh shape) none registry s (i + 1) list :=
        ih (fun v hv => hfits v (List.mem_cons_of_mem _ hv)) fun j hj hlt => hroom j (by omega) (by omega)
      rw [hsame]
      simp only [hrest]

/-- The loop stores all structures, and changes nothing beside them. -/
theorem entries_stored (hne : registry ≠ []) (hv : nr_reg_is_valid registry = .ok) (h : Sound s) (hc : CInv s.cbs)
    (hopen : Open s registry) (hfits : ∀ values ∈ list, shape.Fits values)
    (hroom : ∀ j, i ≤ j → j < i + list.length → shape.Room (entryName registry j)) (hlen : i + list.length < 2 ^ 31)
    (hempty : ∀ j, i ≤ j → ∀ n, covers (entryName registry j) n = true → s.map n = none) :
    ∃ s', set_entries (set_struct idle shape) none registry s i list = some (.ok, s') ∧
      ∀ n, covers registry n = false → ¬ Ancestor n registry → s'.map n = s.map n := by
  induction list generalizing i s with
  | nil => exact ⟨s, rfl, fun _ _ _ => rfl⟩
  | cons values list ih =>
    rw [List.length_cons] at hroom hlen
    have hone := hfits values List.mem_cons_self
    have hmembers : shape.members ≠ [] := by
      intro hnil
      obtain ⟨arg, harg⟩ := hone.stored
      have hlength := hone.typed.length_eq
      rw [hnil] at hlength
      rw [List.eq_nil_of_length_eq_zero hlength.symm] at harg
      cases harg
    have hroomi := hroom i (Nat.le_refl _) (by omega)
    obtain ⟨hvalid, hmake⟩ := hroomi.entry hmembers hne hv
    have hnil : entryName registry i ≠ [] := by simp [entryName]
    have hemptyi := hempty i (Nat.le_refl _)
    have hopeni : Open s (entryName registry i) := by
      rintro m (rfl | hm)
      · exact ⟨hvalid, .inl (hemptyi _ (covers_self _))⟩
      · exact hopen m ((ancestor_iff entryName_parent).1 hm)
    obtain ⟨s₁, hst, h₁, hc₁⟩ := struct_stored hnil h hc hopeni hone hroomi hemptyi
    have hnode := struct_node hnil h.1 hone hemptyi hst
    obtain ⟨-, hframe⟩ := set_members_frame hnil h.1 hst
    have hopen₁ : Open s₁ registry := by
      intro m hm
      obtain ⟨hvm, hor⟩ := hopen m hm
      refine ⟨hvm, ?_⟩
      rw [hnode m (.inr ((ancestor_iff entryName_parent).2 hm))]
      split
      · exact .inr rfl
      · exact hor
    have hempty₁ : ∀ j, i + 1 ≤ j → ∀ n, covers (entryName registry j) n = true → s₁.map n = none := by
      intro j hj n hn
      have hij : i ≠ j := by omega
      rw [hframe n ?_ fun hanc => ?_]
      · exact hempty j (by omega) n hn
      · rw [Bool.eq_false_iff]
        exact fun hcov => hij (covers_entry_unique hcov hn)
      · have hcov := covers_trans hn (covers_iff.2 (.inr (.inr hanc)))
        rw [covers_entryName_ne (Ne.symm hij)] at hcov
        cases hcov
    obtain ⟨s', hst', hother⟩ := ih h₁ hc₁ hopen₁ (fun v hv => hfits v (List.mem_cons_of_mem _ hv))
      (fun j hj hlt => hroom j (by omega) (by omega)) (by omega) hempty₁
    refine ⟨s', ?_, fun n hn hanc => ?_⟩
    · rw [set_entries]
      dsimp only [Option.map_none]
      rw [hmake]
      dsimp only
      rw [hst]
      dsimp only
      rw [if_pos (by omega), hst']
    · rw [hother n hn hanc]
      refine hframe n ?_ fun hm => ?_
      · rw [Bool.eq_false_iff]
        intro hcov
        have hreg : covers registry (entryName registry i) = true :=
          covers_iff.2 (.inr (.inr ((ancestor_iff entryName_parent).2 (.inl rfl))))
        rw [covers_trans hreg hcov] at hn
        cases hn
      · rcases (ancestor_iff entryName_parent).1 hm with rfl | hm
        · rw [covers_self] at hn
          cases hn
        · exact hanc hm

/-- A list of structures replaces what was stored at its name, and is read back
in the order of the positions as text; nothing else in the registry changes. -/
theorem structs_round_trip {evs : List (RegOp × Status)} (hrun : Reaches idle Safe evs s)
    (hmake : nr_c2ru_make_registry parent child = .ok registry)
    (hdirs : ∀ m, Ancestor m registry → nr_reg_is_valid m = .ok ∧ (s.map m = none ∨ s.map m = some (some .registry)))
    (hfits : ∀ values ∈ list, shape.Fits values) (hroom : ∀ i < list.length, shape.Room (entryName registry i))
    (hlen : list.length < 2 ^ 31) :
    ∃ s', nr_c2ru_set_children idle (set_struct idle shape) none s parent child list = some (.ok, s') ∧
      nr_c2ru_get_children .unused (get_struct shape) s' parent child = some (.ok, inTextOrder list) ∧
      (list.length ≤ 10 → inTextOrder list = list) ∧
      ∀ n, covers registry n = false → ¬ Ancestor n registry → s'.map n = s.map n := by
  obtain ⟨hne, hv⟩ := make_registry_valid hmake
  obtain ⟨a, ha⟩ := exists_refines ⟨hrun.rinv, hrun.tree⟩ (safe_run_cinv hrun)
  -- what was stored is deleted
  have hproper : Proper s (.del registry) := trivial
  obtain ⟨ans, s', hcall⟩ := ha.returns hproper
  obtain ⟨⟨r, s₁⟩, hdel, -⟩ := Option.map_eq_some_iff.1 hcall
  obtain ⟨-, ha₁⟩ := ha.del hdel
  obtain ⟨-, -, hmap, -⟩ := del_spec hrun.rinv hv hdel
  have hgone : ∀ n, s₁.map n = if covers registry n then none else s.map n := fun n => by
    rw [hmap]
    dsimp only
    rw [if_neg fun hn => hne hn.1]
  have hopen : Open s₁ registry := by
    rintro m (rfl | hm)
    · exact ⟨hv, .inl (by rw [hgone, if_pos (covers_self _)])⟩
    · obtain ⟨hvm, hor⟩ := hdirs m hm
      refine ⟨hvm, ?_⟩
      rw [hgone]
      split
      · exact .inl rfl
      · exact hor
  have hempty : ∀ j, 0 ≤ j → ∀ n, covers (entryName registry j) n = true → s₁.map n = none := by
    intro j _ n hn
    have hreg : covers registry (entryName registry j) = true :=
      covers_iff.2 (.inr (.inr ((ancestor_iff entryName_parent).2 (.inl rfl))))
    rw [hgone, if_pos (covers_trans hreg hn)]
  have hroom₀ : ∀ j, 0 ≤ j → j < 0 + list.length → shape.Room (entryName registry j) := fun j _ hj => hroom j (by omega)
  obtain ⟨s', hst, hother⟩ := entries_stored hne hv ha₁.sound ha₁.cbs hopen hfits hroom₀ (by omega) hempty
  refine ⟨s', ?_, ?_, inTextOrder_short, fun n hn hanc => ?_⟩
  · rw [nr_c2ru_set_children, hmake]
    dsimp only
    rw [hdel]
    exact hst
  · refine read_back hrun (struct_inverse idle shape) ?_
    rw [nr_c2ru_set_children, hmake]
    dsimp only
    rw [hdel]
    dsimp only
    rw [entries_fitting hne hfits hroom₀]
    exact hst
  · rw [hother n hn hanc, hgone, if_neg (by simp [hn])]

end

/-- A host and its port. -/
def hostShape : Shape where
  members := [(str "host", .STRING), (str "port", .UINT2)]
  apart := by decide
  typed := by decide

/-- The second has no host. -/
def hosts : List (List (Option Arg)) :=
  [[some (.string (str "x")), some (.scalar (._nr_uint2 80))], [none, some (.scalar (._nr_uint2 81))]]

/-- Two structures in the place of others. -/
theorem structs_round_trip_two : ∃ evs s s', Reaches idle Safe evs s ∧
    nr_c2ru_set_children idle (set_struct idle hostShape) none s (str "a") (str "b") hosts = some (.ok, s') ∧
    nr_c2ru_get_children .unused (get_struct hostShape) s' (str "a") (str "b") = some (.ok, hosts) := by
  have hex : (trace idle (fun s op => decide (Safe s op)) [.set (str "a.b.7.host") (.string (str "y"))]).any (fun x =>
      x.2.map (str "a") = some (some .registry)) = true := by decide +kernel
  obtain ⟨⟨rs, s⟩, htr, hx⟩ := (Option.any_eq_true _ _).1 hex
  have hreach : Reaches idle Safe _ s := (trace_reaches htr).mono fun _ _ hs => of_decide_eq_true hs
  have ha : s.map (str "a") = some (some .registry) := of_decide_eq_true hx
  have hmake : nr_c2ru_make_registry (str "a") (str "b") = .ok (str "a.b") := rfl
  have hdirs : ∀ m, Ancestor m (str "a.b") → nr_reg_is_valid m = .ok ∧ (s.map m = none ∨ s.map m = some (some .registry)) := by
    intro m hm
    have hparent : beforeLastDot (str "a.b") = some (str "a") := rfl
    rcases (ancestor_iff hparent).1 hm with rfl | hm
    · exact ⟨rfl, .inr ha⟩
    · exact absurd hm (not_ancestor rfl)
  have hfits : ∀ values ∈ hosts, hostShape.Fits values := by
    intro values hv
    rcases List.mem_cons.1 hv with rfl | hv
    · refine ⟨.cons ?_ (.cons ?_ .nil), _, List.mem_cons_self⟩
      · rintro arg ⟨⟩
        exact ⟨rfl, by decide, by decide⟩
      · rintro arg ⟨⟩
        exact ⟨rfl, rfl⟩
    · obtain rfl := List.mem_singleton.1 hv
      refine ⟨.cons ?_ (.cons ?_ .nil), .scalar (._nr_uint2 81), by simp⟩
      · rintro arg ⟨⟩
      · rintro arg ⟨⟩
        exact ⟨rfl, rfl⟩
  have hroom : ∀ i < hosts.length, hostShape.Room (entryName (str "a.b") i) := by
    intro i hi m hm
    have hi' : i = 0 ∨ i = 1 := by
      simp [hosts] at hi
      omega
    have hm' : m = (str "host", .STRING) ∨ m = (str "port", .UINT2) := by simpa [hostShape] using hm
    rcases hi' with rfl | rfl <;> rcases hm' with rfl | rfl <;> exact ⟨_, rfl⟩
  obtain ⟨s', hset, hget, hshort, -⟩ := structs_round_trip hreach hmake hdirs hfits hroom (by decide)
  refine ⟨_, s, s', hreach, hset, ?_⟩
  rw [hget, hshort (by decide)]

end Nrappkit.Service
