import Nrappkit.Registry.LocalInvariants
/-!
# What each registry call does

`Arg` is the value a setter is called with. A setter refuses a bad name and a
node of another type, overwrites a node of its own type, or stores a new node;
a deletion removes a name and everything below it. Each is stated once, on
`Reg.map` and on the events.
-/
open Lib Nrappkit.Assoc

namespace Nrappkit.Registry

/-! ## Overwriting a node -/

/-- Writing the node of `name` changes that name only. -/
theorem write_node {s : Reg} (h : RInv s) {name : Bytes} {p : Ptr} (hp : s.ptr name = some p) {node : Node}
    (hn : node.Ok) :
    RInv { s with nodes := Function.update s.nodes p (some node) } ∧
      Reg.map { s with nodes := Function.update s.nodes p (some node) } =
        Function.update s.map name (some (some node.value)) := by
  refine ⟨⟨h.rep, h.names, fun q st len data hq => ?_⟩, ?_⟩
  · by_cases hqp : q = p
    · subst hqp
      simp only [Function.update_self, Option.some.injEq] at hq
      subst hq
      exact hn
    · simp only [Function.update_of_ne hqp] at hq
      exact h.block q st len data hq
  · funext m
    have hptr : Reg.ptr { s with nodes := Function.update s.nodes p (some node) } m = s.ptr m := rfl
    rw [Reg.map, hptr]
    by_cases hm : m = name
    · subst hm
      simp [hp]
    · rw [Function.update_of_ne hm, Reg.map]
      cases hq : s.ptr m with
      | none => rfl
      | some q =>
        have hqp : q ≠ p := by
          rintro rfl
          exact hm (h.ptr_inj hq hp)
        simp [Function.update_of_ne hqp]

/-- Storing a new node in the place of the node of `name`, which is released. -/
theorem replace_node {s : Reg} (h : RInv s) {name : Bytes} {p : Ptr} (hp : s.ptr name = some p)
    (hlive : (s.nodes p).isSome) {node : Node} (hn : node.Ok) :
    ∃ t nodes, r_assoc_insert s.nr_registry (nameKey name) s.brk none (some nr_reg_rfree) .R_ASSOC_REPLACE =
        some (.ok, t, [(nr_reg_rfree, p)]) ∧
      free_nodes (Function.update s.nodes s.brk (some node)) [(nr_reg_rfree, p)] = some nodes ∧
      RInv { s with nr_registry := t, nodes, brk := s.brk + 1 } ∧
      Reg.map { s with nr_registry := t, nodes, brk := s.brk + 1 } =
        Function.update s.map name (some (some node.value)) := by
  obtain ⟨cs, hr⟩ := h.rep
  obtain ⟨hent, hlt, hv⟩ := h.ptr_some hp
  obtain ⟨t, hi, hr', hent', -, -, -⟩ := hr.insert_replace hent s.brk none (some nr_reg_rfree)
  have hpb : p ≠ s.brk := Nat.ne_of_lt hlt
  refine ⟨t, Function.update (Function.update s.nodes s.brk (some node)) p none, hi, ?_,
    ⟨⟨cs, hr'⟩, h.names.insert hv hent', fun q st len data hq => ?_⟩, ?_⟩
  · simp [free_nodes, Function.update_of_ne hpb, hlive]
  · by_cases hqp : q = p
    · simp [hqp] at hq
    · simp only [Function.update_of_ne hqp] at hq
      by_cases hqb : q = s.brk
      · subst hqb
        simp only [Function.update_self, Option.some.injEq] at hq
        subst hq
        exact hn
      · simp only [Function.update_of_ne hqb] at hq
        exact h.block q st len data hq
  · funext m
    rw [Reg.map, Reg.ptr, NameTable.get_entry hent' m]
    by_cases hm : m = name
    · subst hm
      simp [Function.update_of_ne (Ne.symm hpb)]
    · rw [Function.update_of_ne hm, if_neg hm, Reg.map, Reg.ptr]
      cases hq : s.nr_registry.get (nameKey m) with
      | none => rfl
      | some q =>
        have hqp : q ≠ p := by
          rintro rfl
          exact hm (h.ptr_inj hq hp)
        have hqb : q ≠ s.brk := Nat.ne_of_lt (h.ptr_some hq).2.1
        simp [Function.update_of_ne hqp, Function.update_of_ne hqb]

/-! ## The setters -/

/-- The value a setter is called with. A string is the bytes before its
terminator. -/
inductive Arg where
  | scalar (d : Scalar)
  | registry
  | bytes (b : Bytes)
  | string (b : Bytes)
  deriving DecidableEq

/-- The setter for the type of the value. -/
def set (beh : nr_reg_cb_info → UInt8) (s : Reg) (name : Bytes) : Arg → Option (Status × Reg)
  | .scalar (._char v) => nr_reg_local_set_char beh s name v
  | .scalar (._uchar v) => nr_reg_local_set_uchar beh s name v
  | .scalar (._nr_int2 v) => nr_reg_local_set_int2 beh s name v
  | .scalar (._nr_uint2 v) => nr_reg_local_set_uint2 beh s name v
  | .scalar (._nr_int4 v) => nr_reg_local_set_int4 beh s name v
  | .scalar (._nr_uint4 v) => nr_reg_local_set_uint4 beh s name v
  | .scalar (._nr_int8 v) => nr_reg_local_set_int8 beh s name v
  | .scalar (._nr_uint8 v) => nr_reg_local_set_uint8 beh s name v
  | .scalar (._double v) => nr_reg_local_set_double beh s name v
  | .registry => nr_reg_local_set_registry beh s name
  | .bytes b => nr_reg_local_set_bytes beh s name b
  | .string b => nr_reg_local_set_string beh s name b

theorem set_scalar (beh : nr_reg_cb_info → UInt8) (s : Reg) (name : Bytes) (d : Scalar) :
    set beh s name (.scalar d) = nr_reg_set beh (NR_reg_set_registry beh name.length) s name (some d) := by
  cases d <;> rfl

def Arg.type : Arg → NR_REG_TYPE
  | .scalar d => d.type
  | .registry => .REGISTRY
  | .bytes _ => .BYTES
  | .string _ => .STRING

/-- The bytes an array node gives back: `length` is an `unsigned int`. -/
def trunc (data : Bytes) : Bytes := data.take (data.length % 2 ^ 32)

/-- The value a node has after the setter, given the one it had. -/
def Arg.written (old : Option Value) : Arg → Value
  | .scalar d => match old with
    | some (.scalar v) => .scalar (if v.ne d then d else v)
    | _ => .scalar (stored d)
  | .registry => .registry
  | .bytes b => .array false (trunc b)
  | .string b => .array true (trunc (b ++ [0]))

/-- The setter finds a value that differs from its own. -/
def Arg.differs (old : Value) : Arg → Bool
  | .scalar d => match old with
    | .scalar v => v.ne d
    | _ => false
  | .registry => false
  | .bytes b => match old with
    | .array _ c => c ≠ b
    | _ => false
  | .string b => match old with
    | .array _ c => c ≠ b ++ [0]
    | _ => false

theorem array_ok (string : Bool) (data : Bytes) : (Node.array string (UInt32.ofNat data.length) data).Ok := by
  simp only [Node.Ok, UInt32.toNat_ofNat']
  exact Nat.mod_le _ _

theorem array_value (string : Bool) (data : Bytes) :
    (Node.array string (UInt32.ofNat data.length) data).value = .array string (trunc data) := by
  simp [Node.value, trunc]

/-- `nr_reg_set_array` under a name that is absent. -/
theorem set_array_absent (beh : nr_reg_cb_info → UInt8) {s : Reg} (h : RInv s) {name : Bytes}
    (hv : nr_reg_is_valid name = .ok) (hp : s.ptr name = none) (string : Bool) (data : Bytes) :
    Outcome s name (.array string (trunc data))
      (nr_reg_set_array beh (NR_reg_set_registry beh name.length) s name string data) := by
  have hrec : ∀ s p, RInv s → p.length < name.length → nr_reg_is_valid p = .ok → s.ptr p = none →
      Outcome s p .registry (NR_reg_set_registry beh name.length s p) := fun s p hs hlt hv hp =>
    set_registry_absent beh _ hs hlt hv hp
  obtain ⟨hout, -⟩ := create_spec hrec h hv hp (Nat.le_refl _) (array_ok string data)
  rw [array_value] at hout
  unfold nr_reg_set_array
  rw [h.fetch_node hv, hp]
  exact hout

section
variable {beh : nr_reg_cb_info → UInt8} {s : Reg} {name : Bytes}

theorem set_array_invalid {set_registry : Reg → Bytes → Option (Status × Reg)} (hv : nr_reg_is_valid name ≠ .ok)
    (string : Bool) (data : Bytes) :
    nr_reg_set_array beh set_registry s name string data = some (.R_BAD_ARGS, s) := by
  unfold nr_reg_set_array
  rw [fetch_node_invalid hv, (is_valid_cases name).resolve_left hv]

/-- A bad name is refused. -/
theorem set_bad_name (hv : nr_reg_is_valid name ≠ .ok) (arg : Arg) : set beh s name arg = some (.R_BAD_ARGS, s) := by
  cases arg with
  | scalar d => rw [set_scalar, set_invalid hv]
  | registry => exact set_invalid hv none
  | bytes b => exact set_array_invalid hv false b
  | string b => exact set_array_invalid hv true (b ++ [0])

/-- Under a name that is absent, the setter stores a new node. -/
theorem set_new (h : RInv s) (hv : nr_reg_is_valid name = .ok) (hp : s.ptr name = none) (arg : Arg) :
    Outcome s name (arg.written none) (set beh s name arg) := by
  cases arg with
  | scalar d =>
    rw [set_scalar]
    exact set_absent (fun s p hs hlt hv hp => set_registry_absent beh _ hs hlt hv hp) h hv hp (Nat.le_refl _) (some d)
  | registry => exact set_registry_absent beh _ h (Nat.lt_succ_self _) hv hp
  | bytes b => exact set_array_absent beh h hv hp false b
  | string b => exact set_array_absent beh h hv hp true (b ++ [0])

/-- What overwriting a node with the setter for its type does. -/
def Overwrites (s : Reg) (name : Bytes) (v : Value) (changed : Bool) (o : Option (Status × Reg)) : Prop :=
  ∀ r s', o = some (r, s') → r = .ok ∧ RInv s' ∧ s'.map = Function.update s.map name (some (some v)) ∧
    s'.events = s.events ++ if changed then [(name, NR_REG_CB_ACTION_CHANGE)] else []

/-- A setter that finds nothing to change. -/
theorem overwrites_same (h : RInv s) {v : Value} (hm : s.map name = some (some v)) :
    Overwrites s name v false (some (.ok, s)) := by
  intro r s' heq
  cases heq
  refine ⟨rfl, h, ?_, by simp⟩
  rw [← hm, Function.update_eq_self]

/-- A setter that writes the node it finds. -/
theorem overwrites_in_place (h : RInv s) {p : Ptr} (hp : s.ptr name = some p) {node : Node} (hn : node.Ok) :
    Overwrites s name node.value true
      (nr_reg_change_node beh { s with nodes := Function.update s.nodes p (some node) } name p p) := by
  obtain ⟨hinv, hmap⟩ := write_node h hp hn
  intro r s' heq
  unfold nr_reg_change_node at heq
  rw [if_neg (by simp [(h.ptr_some hp).2.2]), if_neg (by simp)] at heq
  obtain ⟨rfl, hsame, hev⟩ := raise_event_spec (by decide) heq
  exact ⟨rfl, hsame.inv hinv, hsame.map.trans hmap, hev⟩

/-- A setter that puts a new node in the place of the one it finds. -/
theorem overwrites_by_new (h : RInv s) {p : Ptr} (hp : s.ptr name = some p) (hlive : (s.nodes p).isSome) {node : Node}
    (hn : node.Ok) :
    Overwrites s name node.value true
      (nr_reg_change_node beh { s with nodes := Function.update s.nodes s.brk (some node), brk := s.brk + 1 } name
        s.brk p) := by
  obtain ⟨t, nodes, hi, hfree, hinv, hmap⟩ := replace_node h hp hlive hn
  have hne : p ≠ s.brk := Nat.ne_of_lt (h.ptr_some hp).2.1
  intro r s' heq
  unfold nr_reg_change_node at heq
  rw [if_neg (by simp [(h.ptr_some hp).2.2]), if_pos hne] at heq
  simp only [hi, hfree] at heq
  obtain ⟨rfl, hsame, hev⟩ := raise_event_spec (by decide) heq
  exact ⟨rfl, hsame.inv hinv, hsame.map.trans hmap, hev⟩

/-- `nr_reg_set_array` on an array of its type: nothing to do, a new node for a
longer content, or the old block for one that is not longer. -/
theorem set_array_stored {set_registry : Reg → Bytes → Option (Status × Reg)} (h : RInv s) {p : Ptr}
    (hp : s.ptr name = some p) {string : Bool} {length : UInt32} {block : Bytes}
    (hn : s.nodes p = some (.array string length block)) (data : Bytes) :
    Overwrites s name (.array string (trunc data)) (decide (block.take length.toNat ≠ data))
      (nr_reg_set_array beh set_registry s name string data) := by
  have hblk := h.block p string length block hn
  have hlt : length.toNat < 2 ^ 32 := length.toNat_lt
  have hmap : s.map name = some (some (.array string (block.take length.toNat))) := by
    simp [Reg.map, hp, hn, Node.value]
  unfold nr_reg_set_array
  rw [h.fetch_node (h.ptr_some hp).2.2, hp]
  simp only [hn, Option.map_some, Node.type, ne_eq, not_true_eq_false, if_false]
  by_cases hsame : block.take length.toNat = data
  · have hlen : length.toNat = data.length := by
      rw [← hsame, List.length_take, Nat.min_eq_left hblk]
    have htrunc : trunc data = data := by
      rw [trunc, ← hlen, Nat.mod_eq_of_lt hlt, hlen, List.take_length]
    rw [if_neg (by rw [← hlen, hsame]; simp), htrunc, decide_eq_false (by simpa using hsame)]
    exact overwrites_same h (by rw [hmap, hsame])
  · rw [decide_eq_true (by simpa using hsame), if_pos ?_]
    · split
      · rw [← array_value]
        exact overwrites_by_new h hp (by rw [hn]; rfl) (array_ok string data)
      · rename_i hle
        have hdlt : data.length < 2 ^ 32 := by omega
        have hok : (Node.array string (UInt32.ofNat data.length) (data ++ block.drop data.length)).Ok := by
          simp only [Node.Ok, UInt32.toNat_ofNat', List.length_append, Nat.mod_eq_of_lt hdlt]
          omega
        have hval : (Node.array string (UInt32.ofNat data.length) (data ++ block.drop data.length)).value =
            .array string (trunc data) := by
          rw [Node.value, UInt32.toNat_ofNat', trunc, Nat.mod_eq_of_lt hdlt, List.take_left, List.take_length]
        rw [← hval]
        exact overwrites_in_place h hp hok
    · by_contra hc
      rw [not_or, not_not, not_not] at hc
      rw [hc.1] at hsame
      exact hsame hc.2

/-- `nr_reg_set` on a scalar of its type. -/
theorem set_scalar_stored {set_registry : Reg → Bytes → Option (Status × Reg)} (h : RInv s) {p : Ptr}
    (hp : s.ptr name = some p) {v d : Scalar} (hn : s.nodes p = some (.scalar v)) (ht : v.type = d.type) :
    Overwrites s name (.scalar (if v.ne d then d else v)) (v.ne d)
      (nr_reg_set beh set_registry s name (some d)) := by
  have hmap : s.map name = some (some (.scalar v)) := by simp [Reg.map, hp, hn, Node.value]
  unfold nr_reg_set
  rw [h.fetch_node (h.ptr_some hp).2.2, hp]
  simp only [hn, Option.map_some, Node.type, scalarNode, ht, ne_eq, not_true_eq_false, if_false]
  cases hne : v.ne d with
  | true =>
    rw [if_pos rfl]
    have hok : (Node.scalar d).Ok := trivial
    exact overwrites_in_place h hp hok
  | false =>
    rw [if_neg (by simp)]
    exact overwrites_same h hmap

/-- Where the setter finds a node of another type it refuses, and where the
node was released the call is undefined. -/
theorem set_stored_type (h : RInv s) {p : Ptr} (hp : s.ptr name = some p) (arg : Arg) :
    (s.nodes p = none → set beh s name arg = none) ∧
      ∀ node, s.nodes p = some node → node.type ≠ arg.type → set beh s name arg = some (.R_FAILED, s) := by
  have hv := (h.ptr_some hp).2.2
  have hscalar : ∀ (f : Reg → Bytes → Option (Status × Reg)) (d : Option Scalar),
      (s.nodes p = none → nr_reg_set beh f s name d = none) ∧ ∀ node, s.nodes p = some node →
        node.type ≠ (scalarNode d).type → nr_reg_set beh f s name d = some (.R_FAILED, s) := by
    intro f d
    unfold nr_reg_set
    rw [h.fetch_node hv, hp]
    refine ⟨fun hn => by simp [hn], fun node hn ht => ?_⟩
    simp only [hn, Option.map_some, ne_eq, ht, not_false_eq_true, if_true]
  have harray : ∀ (f : Reg → Bytes → Option (Status × Reg)) (string : Bool) (data : Bytes),
      (s.nodes p = none → nr_reg_set_array beh f s name string data = none) ∧ ∀ node, s.nodes p = some node →
        node.type ≠ arrayType string → nr_reg_set_array beh f s name string data = some (.R_FAILED, s) := by
    intro f string data
    unfold nr_reg_set_array
    rw [h.fetch_node hv, hp]
    refine ⟨fun hn => by simp [hn], fun node hn ht => ?_⟩
    simp only [hn, Option.map_some, ne_eq, ht, not_false_eq_true, if_true]
  cases arg with
  | scalar d =>
    rw [set_scalar]
    exact hscalar _ (some d)
  | registry => exact hscalar _ none
  | bytes b => exact harray _ false b
  | string b => exact harray _ true (b ++ [0])

/-- The setter on a node of its type. -/
theorem set_overwrites (h : RInv s) {p : Ptr} (hp : s.ptr name = some p) {node : Node} (hn : s.nodes p = some node)
    {arg : Arg} (ht : node.type = arg.type) :
    Overwrites s name (arg.written (some node.value)) (arg.differs node.value) (set beh s name arg) := by
  have hmap : s.map name = some (some node.value) := by simp [Reg.map, hp, hn]
  cases arg with
  | scalar d =>
    rw [set_scalar]
    cases node with
    | scalar v => exact set_scalar_stored h hp hn ht
    | registry => cases d <;> cases ht
    | array string _ _ => cases d <;> cases string <;> cases ht
  | registry =>
    cases node with
    | registry =>
      have heq : set beh s name .registry = some (.ok, s) := by
        change nr_reg_set beh _ s name none = _
        rw [set_registry_stored h hp, hn]
        rfl
      rw [heq]
      exact overwrites_same h hmap
    | scalar v => cases v <;> cases ht
    | array string _ _ => cases string <;> cases ht
  | bytes b =>
    cases node with
    | scalar v => cases v <;> cases ht
    | registry => cases ht
    | array string length block =>
      cases string with
      | true => cases ht
      | false => exact set_array_stored h hp hn b
  | string b =>
    cases node with
    | scalar v => cases v <;> cases ht
    | registry => cases ht
    | array string length block =>
      cases string with
      | true => exact set_array_stored h hp hn (b ++ [0])
      | false => cases ht

end

/-! ## Deletion -/

/-- The keys of some elements. -/
def keysOf (t : r_assoc Ptr) (l : List Ptr) : List Bytes := l.filterMap fun a => (t.heap a).map (·.key)

theorem keysOf_cons {t : r_assoc Ptr} {p : Ptr} {e : r_assoc_el Ptr} (he : t.heap p = some e) (rest : List Ptr) :
    keysOf t (p :: rest) = e.key :: keysOf t rest := by
  rw [keysOf, List.filterMap_cons_some (b := e.key) (by simp [he])]
  rfl

/-- Releasing an element changes no other key. -/
theorem keysOf_released {t t' : r_assoc Ptr} {p : Ptr}
    (hbod : ∀ x, x ≠ p → (t'.heap x).map DLink.body = (t.heap x).map DLink.body) {rest : List Ptr} (hp : p ∉ rest) :
    keysOf t' rest = keysOf t rest := by
  refine List.filterMap_congr fun a ha => ?_
  have hap : a ≠ p := fun hap => hp (hap ▸ ha)
  have := congrArg (Option.map fun b => b.1) (hbod a hap)
  rwa [Option.map_map, Option.map_map] at this

/-- The keys of the table are the stored names, each once. -/
theorem RInv.table_names {s : Reg} (h : RInv s) {cs : Nat → List Ptr} (hr : Rep s.nr_registry cs) :
    ((keysOf s.nr_registry (order s.nr_registry cs)).map List.dropLast).Nodup ∧
      ∀ n, n ∈ (keysOf s.nr_registry (order s.nr_registry cs)).map List.dropLast ↔ s.ptr n ≠ none := by
  have hkey : ∀ p ∈ order s.nr_registry cs, ∃ e name, s.nr_registry.heap p = some e ∧ e.key = nameKey name := by
    intro p hp
    obtain ⟨e, he⟩ := hr.mem_order.1 hp
    obtain ⟨-, -, name, hk, -⟩ := h.names.entry e.key _ (hr.entry_eq_some.2 ⟨p, e, he, rfl⟩)
    exact ⟨e, name, he, hk⟩
  refine ⟨List.Nodup.map_on ?_ (hr.nodup_order.filterMap ?_), fun n => ?_⟩
  · intro k hk k' hk' heq
    obtain ⟨p, hp, hpk⟩ := List.mem_filterMap.1 hk
    obtain ⟨p', hp', hpk'⟩ := List.mem_filterMap.1 hk'
    obtain ⟨e, name, he, hek⟩ := hkey p hp
    obtain ⟨e', name', he', hek'⟩ := hkey p' hp'
    rw [he, Option.map_some, hek] at hpk
    rw [he', Option.map_some, hek'] at hpk'
    cases hpk
    cases hpk'
    rw [nameKey, nameKey, List.dropLast_concat, List.dropLast_concat] at heq
    rw [heq]
  · intro p p' k hk hk'
    obtain ⟨e, he, rfl⟩ := Option.map_eq_some_iff.1 hk
    obtain ⟨e', he', hkey'⟩ := Option.map_eq_some_iff.1 hk'
    exact hr.keys p p' e e' he he' hkey'.symm
  · rw [List.mem_map]
    constructor
    · rintro ⟨k, hk, rfl⟩ hnone
      obtain ⟨p, hp, hpk⟩ := List.mem_filterMap.1 hk
      obtain ⟨e, name, he, hek⟩ := hkey p hp
      rw [he, Option.map_some, hek] at hpk
      cases hpk
      have hget : s.ptr name = some e.data := hr.get_eq_some.2 ⟨p, e, he, hek, rfl⟩
      rw [nameKey, List.dropLast_concat] at hnone
      rw [hnone] at hget
      cases hget
    · intro hne
      obtain ⟨q, hq⟩ := Option.ne_none_iff_exists'.1 hne
      obtain ⟨p, e, he, hek, -⟩ := hr.get_eq_some.1 hq
      exact ⟨nameKey n, List.mem_filterMap.2 ⟨p, hr.mem_order.2 ⟨e, he⟩, by simp [he, hek]⟩, List.dropLast_concat⟩

/-- The element `e` that a walk through the table is at, with the iterator behind
it. -/
structure WalkAt (s : Reg) (cs : Nat → List Ptr) (iter : r_assoc_iterator) (p : Ptr) (rest : List Ptr) (e : r_assoc_el Ptr)
    (iter' : r_assoc_iterator) (name : Bytes) : Prop where
  elem : s.nr_registry.heap p = some e
  key : e.key = nameKey name
  cur : iter.next = some p
  read : r_assoc_iter s.nr_registry iter = some (.ok ((nameKey name, e.data), iter'))
  prev : iter'.prev = some p
  mem : p ∈ cs iter'.prev_chain.toNat
  next : At cs iter' rest
  keys : keysOf s.nr_registry (p :: rest) = nameKey name :: keysOf s.nr_registry rest
  ptr : s.ptr name = some e.data

theorem RInv.walk_at {s : Reg} (h : RInv s) {cs : Nat → List Ptr} (hr : Rep s.nr_registry cs) {iter : r_assoc_iterator}
    {p : Ptr} {pre rest : List Ptr} (ho : order s.nr_registry cs = pre ++ p :: rest) (hat : At cs iter (p :: rest)) :
    ∃ e iter' name, WalkAt s cs iter p rest e iter' name := by
  obtain ⟨e, iter', he, hit, hprev, hpc, hat'⟩ := hr.iter_step ho hat
  obtain ⟨-, -, name, hk, -⟩ := h.names.entry e.key _ (hr.entry_eq_some.2 ⟨p, e, he, rfl⟩)
  refine ⟨e, iter', name, he, hk, hat.1, ?_, hprev, hpc, hat', ?_, hr.get_eq_some.2 ⟨p, e, he, hk, rfl⟩⟩
  · rw [← hk]
    exact hit
  · rw [keysOf_cons he, hk]

/-- What the loop does at an element. -/
theorem WalkAt.iter_loop {s : Reg} {cs : Nat → List Ptr} {iter iter' : r_assoc_iterator} {p : Ptr} {rest : List Ptr}
    {e : r_assoc_el Ptr} {name : Bytes} (h : WalkAt s cs iter p rest e iter' name) {α : Type}
    (action : α → Reg → r_assoc_iterator → Bytes → Ptr → Option (Status × α × Reg)) (pfx : Bytes) (n : Nat) (a : α) :
    Registry.iter_loop action pfx (n + 1) a s iter =
      if covers pfx name then (action a s iter' name e.data).bind fun x =>
        if x.1 = .ok then Registry.iter_loop action pfx n x.2.1 x.2.2 iter' else some x
      else Registry.iter_loop action pfx n a s iter' := by
  have hdrop : (nameKey name).dropLast = name := List.dropLast_concat
  conv_lhs => unfold Registry.iter_loop
  rw [h.cur]
  simp only [h.read]
  rw [if_neg (by simp [nameKey]), hdrop]
  split
  · cases action a s iter' name e.data with
    | none => rfl
    | some x =>
      obtain ⟨r, a', s'⟩ := x
      cases r <;> rfl
  · rfl

/-- An element of the table releases its node. -/
theorem RInv.destroyCall {s : Reg} (h : RInv s) {cs : Nat → List Ptr} (hr : Rep s.nr_registry cs) {p : Ptr}
    {e : r_assoc_el Ptr} (he : s.nr_registry.heap p = some e) : e.destroyCall = [(nr_reg_rfree, e.data)] := by
  have hx := hr.entry_eq_some.2 ⟨p, e, he, rfl⟩
  obtain ⟨hfn, -⟩ := h.names.entry e.key (e.data, e.copy, e.destroy) hx
  rw [r_assoc_el.destroyCall, (Prod.mk.inj hfn).2]
  rfl

/-- What the deletion of one element leaves. -/
theorem delete_one {s : Reg} (h : RInv s) {cs : Nat → List Ptr} (hr : Rep s.nr_registry cs) {p : Ptr}
    {e : r_assoc_el Ptr} (he : s.nr_registry.heap p = some e) {name : Bytes} (hk : e.key = nameKey name)
    {iter : r_assoc_iterator} (hprev : iter.prev = some p) (hmem : p ∈ cs iter.prev_chain.toNat) {r : Status}
    {u : Unit} {s' : Reg} {key : Bytes} (hd : nr_reg_local_iter_delete () s iter key e.data = some (r, u, s')) :
    r = .ok ∧ RInv s' ∧ Rep s'.nr_registry (fun j => (cs j).erase p) ∧ SameHash s.nr_registry s'.nr_registry ∧
      (∀ x, x ≠ p → (s'.nr_registry.heap x).map DLink.body = (s.nr_registry.heap x).map DLink.body) ∧
      s'.events = s.events ∧ (∀ m, s'.ptr m = if m = name then none else s.ptr m) ∧
      ∀ m q, s'.ptr m = some q → s'.nodes q = s.nodes q := by
  obtain ⟨t', e', he', hrel, hr', hent, hbod, -, -, hsame, -⟩ := hr.release_entry hmem
  rw [he] at he'
  cases he'
  rw [hk] at hent
  have hptr : s.ptr name = some e.data := hr.get_eq_some.2 ⟨p, e, he, hk, rfl⟩
  have hdestroy := h.destroyCall hr he
  unfold nr_reg_local_iter_delete r_assoc_iter_delete at hd
  rw [hprev] at hd
  simp only [hrel, hdestroy, free_nodes] at hd
  split at hd
  · cases hd
    have hptr' : ∀ m, t'.get (nameKey m) = if m = name then none else s.ptr m := fun m => NameTable.get_entry hent m
    refine ⟨rfl, ⟨⟨_, hr'⟩, h.names.erase hent, fun q st len data hq => ?_⟩, hr', hsame, hbod, rfl, hptr', ?_⟩
    · by_cases hqd : q = e.data
      · simp [hqd] at hq
      · simp only [Function.update_of_ne hqd] at hq
        exact h.block q st len data hq
    · intro m q hq
      have hq : t'.get (nameKey m) = some q := hq
      rw [hptr'] at hq
      by_cases hm : m = name
      · rw [if_pos hm] at hq
        cases hq
      · rw [if_neg hm] at hq
        refine Function.update_of_ne ?_ ..
        rintro rfl
        exact hm (h.ptr_inj hq hptr)
  · cases hd

/-- The loop that deletes everything below a prefix, with `rest` to go. -/
theorem delete_loop (pfx : Bytes) (rest : List Ptr) {n : Nat} {s s' : Reg} {cs : Nat → List Ptr} {pre : List Ptr}
    {iter : r_assoc_iterator} {r : Status} {u : Unit} (h : RInv s) (hr : Rep s.nr_registry cs)
    (ho : order s.nr_registry cs = pre ++ rest) (hat : At cs iter rest)
    (hd : iter_loop nr_reg_local_iter_delete pfx n () s iter = some (r, u, s')) :
    r = .ok ∧ RInv s' ∧ s'.events = s.events ∧
      (∀ m, s'.ptr m = if covers pfx m ∧ nameKey m ∈ keysOf s.nr_registry rest then none else s.ptr m) ∧
      ∀ m q, s'.ptr m = some q → s'.nodes q = s.nodes q := by
  induction rest generalizing n s cs pre iter with
  | nil =>
    unfold iter_loop at hd
    rw [hat.1] at hd
    cases hd
    exact ⟨rfl, h, rfl, fun m => by simp [keysOf], fun _ _ _ => rfl⟩
  | cons p rest ih =>
    obtain ⟨e, iter', name, hel⟩ := h.walk_at hr ho hat
    cases n with
    | zero =>
      unfold iter_loop at hd
      rw [hel.cur] at hd
      cases hd
    | succ n =>
    rw [hel.iter_loop] at hd
    by_cases hc : covers pfx name = true
    · rw [if_pos hc] at hd
      obtain ⟨⟨r₁, u₁, s₁⟩, hdel, hd⟩ := Option.bind_eq_some_iff.1 hd
      obtain ⟨rfl, hinv, hr', hsame, hbod, hev, hptr, hnodes⟩ := delete_one h hr hel.elem hel.key hel.prev hel.mem hdel
      obtain ⟨hpr, ho', hat₁⟩ := hr.erase_passed hsame ho hel.next
      have hkeys₁ : keysOf s₁.nr_registry rest = keysOf s.nr_registry rest := keysOf_released hbod hpr
      obtain ⟨hok, hinv', hev', hptr', hnodes'⟩ := ih hinv hr' ho' hat₁ hd
      refine ⟨hok, hinv', hev'.trans hev, fun m => ?_, fun m q hq => ?_⟩
      · simp only [hptr', hkeys₁, hel.keys, hptr, List.mem_cons, nameKey_inj]
        by_cases hm : m = name
        · subst hm
          simp [hc]
        · simp [hm]
      · rw [hnodes' m q hq]
        refine hnodes m q ?_
        rw [hptr'] at hq
        split at hq
        · cases hq
        · exact hq
    · rw [if_neg hc] at hd
      have ho₂ : order s.nr_registry cs = (pre ++ [p]) ++ rest := by simpa using ho
      obtain ⟨hok, hinv', hev', hptr', hnodes'⟩ := ih h hr ho₂ hel.next hd
      refine ⟨hok, hinv', hev', fun m => ?_, hnodes'⟩
      simp only [hptr', hel.keys, List.mem_cons, nameKey_inj]
      by_cases hm : m = name
      · subst hm
        simp [hc]
      · simp [hm]

/-- What the loop of a deletion leaves of the table. -/
theorem iter_delete_spec {s s' : Reg} (h : RInv s) {pfx : Bytes} {r : Status} {u : Unit}
    (hd : nr_reg_local_iter nr_reg_local_iter_delete pfx () s = some (r, u, s')) :
    r = .ok ∧ RInv s' ∧ s'.events = s.events ∧ (∀ m, s'.ptr m = if covers pfx m then none else s.ptr m) ∧
      s'.map = fun m => if covers pfx m then none else s.map m := by
  obtain ⟨cs, hr⟩ := h.rep
  obtain ⟨hok, hinv, hev, hptr, hnodes⟩ := delete_loop pfx _ h hr (List.nil_append _).symm hr.init_iter hd
  have hptr' : ∀ m, s'.ptr m = if covers pfx m then none else s.ptr m := by
    intro m
    rw [hptr]
    by_cases hm : nameKey m ∈ keysOf s.nr_registry (order s.nr_registry cs)
    · simp only [hm, and_true]
    · -- a name that the loop did not meet is not stored
      have hnone : s.ptr m = none := by
        by_contra hne
        obtain ⟨q, hq⟩ := Option.ne_none_iff_exists'.1 hne
        obtain ⟨p, e, he, hk, -⟩ := hr.get_eq_some.1 hq
        exact hm (List.mem_filterMap.2 ⟨p, hr.mem_order.2 (by simp [he]), by simp [he, hk]⟩)
      simp [hm, hnone]
  refine ⟨hok, hinv, hev, hptr', funext fun m => ?_⟩
  rw [Reg.map, hptr']
  by_cases hc : covers pfx m = true
  · simp [hc]
  · rw [if_neg hc, if_neg hc, Reg.map]
    cases hq : s.ptr m with
    | none => rfl
    | some q =>
      have hq' : s'.ptr m = some q := by rw [hptr', if_neg hc, hq]
      simp only [Option.map_some, hnodes m q hq']

/-- A bad name is refused. -/
theorem del_bad_name {beh : nr_reg_cb_info → UInt8} {s : Reg} {name : Bytes} (hv : nr_reg_is_valid name ≠ .ok) :
    nr_reg_local_del beh s name = some (.R_BAD_ARGS, s) := by
  unfold nr_reg_local_del
  rw [if_pos hv, (is_valid_cases name).resolve_left hv]

/-- A deletion removes the name and everything below it, and stores the root
again when that went with them. -/
theorem del_spec {beh : nr_reg_cb_info → UInt8} {s s' : Reg} {name : Bytes} {r : Status} (h : RInv s)
    (hv : nr_reg_is_valid name = .ok) (hd : nr_reg_local_del beh s name = some (r, s')) :
    r = .ok ∧ RInv s' ∧
      (s'.map = fun m => if name = [] ∧ m = [] then some (some .registry)
        else if covers name m then none else s.map m) ∧
      s'.events = s.events ++ (name, NR_REG_CB_ACTION_DELETE) ::
        if name = [] then [([], NR_REG_CB_ACTION_ADD)] else [] := by
  unfold nr_reg_local_del at hd
  rw [if_neg (by simp [hv])] at hd
  cases hl : nr_reg_local_iter nr_reg_local_iter_delete name () s with
  | none =>
    rw [hl] at hd
    cases hd
  | some x =>
    obtain ⟨r₁, u, s₁⟩ := x
    obtain ⟨rfl, hinv, hev, hptr, hmap⟩ := iter_delete_spec h hl
    rw [hl] at hd
    dsimp only at hd
    cases he : raise_event beh s₁ name NR_REG_CB_ACTION_DELETE with
    | none =>
      rw [he] at hd
      cases hd
    | some x =>
      obtain ⟨r₂, s₂⟩ := x
      obtain ⟨rfl, hsame, hev₂⟩ := raise_event_spec (by decide) he
      rw [he] at hd
      dsimp only at hd
      by_cases hroot : name = []
      · subst hroot
        rw [if_pos rfl] at hd
        have hp : s₂.ptr [] = none := by rw [hsame.ptr, hptr]; rfl
        have hout := set_registry_absent beh ([] : Bytes).length.succ (hsame.inv hinv) (Nat.lt_succ_self _) hv hp
        have hpf : parentsFail s₂ [] = false := parentsFail_none rfl
        have hr : r = .ok := by
          by_contra hne
          rw [hout.fail r s' hd hne] at hpf
          cases hpf
        subst hr
        obtain ⟨-, hmap', hev'⟩ := hout.ok s' hd
        refine ⟨rfl, (hout.grown _ _ hd).inv, ?_, ?_⟩
        · funext m
          rw [hmap', newAncestors_none rfl, hsame.map, hmap]
          simp
        · rw [hev', newAncestors_none rfl, hev₂, hev]
          simp
      · rw [if_neg hroot] at hd
        cases hd
        refine ⟨rfl, hsame.inv hinv, ?_, ?_⟩
        · rw [hsame.map, hmap]
          simp [hroot]
        · rw [hev₂, hev, if_neg hroot]

end Nrappkit.Registry
