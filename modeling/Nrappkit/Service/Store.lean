import Nrappkit.Control.Export
import Nrappkit.Lib.Hierarchy
import Nrappkit.Registry.Announce
/-!
# What a registry is for

The registry as its callers know it: a `Hierarchy` of values under valid names.
There are no tables, nodes or addresses in it; a setter stores its value or
changes nothing, a deletion erases, a read looks at one value. `store_refines`
says that this is all a caller can tell of the local registry.
-/
open Lib Nrappkit.Registry Nrappkit.Assoc Nrappkit.Control

namespace Nrappkit.Service

/-! ## The calls -/

/-- The calls on the names of a registry. -/
inductive Call where
  | set (name : Bytes) (arg : Arg)
  | del (name : Bytes)
  | fin (name : Bytes)
  | get (name : Bytes) (type : NR_REG_TYPE) (size : Nat)
  | get_length (name : Bytes)
  | get_type (name : Bytes)
  | get_child_count (name : Bytes)
  | get_children (name : Bytes) (size : Nat)
  deriving DecidableEq

inductive Answer where
  | status (r : Status)
  | value (r : Except Status Value)
  | length (r : Except Status Nat)
  | type (r : Except Status Bytes)
  | count (r : Except Status UInt32)
  | children (r : Except Status (List Bytes))

/-- A callback that leaves the callback table alone. -/
def idle : nr_reg_cb_info → UInt8 := fun _ => 0

def call (s : Reg) : Call → Option (Answer × Reg)
  | .set name arg => (Registry.set idle s name arg).map fun x => (.status x.1, x.2)
  | .del name => (nr_reg_local_del idle s name).map fun x => (.status x.1, x.2)
  | .fin name => (nr_reg_local_fin idle s name).map fun x => (.status x.1, x.2)
  | .get name type size => (getter s name size type).map fun r => (.value r, s)
  | .get_length name => (nr_reg_local_get_length s name).map fun r => (.length r, s)
  | .get_type name => (NR_reg_get_type s name).map fun r => (.type r, s)
  | .get_child_count name => (nr_reg_local_get_child_count s name).map fun r => (.count r, s)
  | .get_children name size => (nr_reg_local_get_children s name size).map fun r => (.children r, s)

/-- The setter strands no node, and an array for children has room. -/
def Proper (s : Reg) : Call → Prop
  | .set name _ => strands s name = false
  | .get_children _ size => 0 < size
  | _ => True

/-! ## Names -/

/-- A valid name. -/
@[ext] structure Name where
  bytes : Bytes
  valid : nr_reg_is_valid bytes = .ok
  deriving DecidableEq

theorem covers_antisymm {a b : Bytes} (hab : covers a b = true) (hba : covers b a = true) : a = b := by
  rcases covers_iff.1 hab with rfl | rfl | hanc
  · rcases covers_iff.1 hba with rfl | rfl | ⟨r, hr⟩
    · rfl
    · rfl
    · simp at hr
  · rfl
  · rcases covers_iff.1 hba with rfl | rfl | hanc'
    · obtain ⟨r, hr⟩ := hanc
      simp at hr
    · rfl
    · exact absurd (Nat.lt_trans hanc.length hanc'.length) (Nat.lt_irrefl _)

/-- `a ≤ b` where a deletion of `a` deletes `b`. -/
instance : PartialOrder Name where
  le a b := covers a.bytes b.bytes = true
  le_refl a := covers_self a.bytes
  le_trans a b c := covers_trans
  le_antisymm a b hab hba := Name.ext (covers_antisymm hab hba)

instance : OrderBot Name where
  bot := ⟨[], rfl⟩
  bot_le _ := covers_iff.2 (.inl rfl)

theorem Name.le_iff {a b : Name} : a ≤ b ↔ covers a.bytes b.bytes = true := Iff.rfl

theorem Name.bytes_bot : (⊥ : Name).bytes = [] := rfl

theorem Name.eq_bot {n : Name} : n = ⊥ ↔ n.bytes = [] := by rw [Name.ext_iff, Name.bytes_bot]

theorem Name.lt_iff {a n : Name} : a < n ↔ (a = ⊥ ∧ n ≠ ⊥) ∨ Ancestor a.bytes n.bytes := by
  rw [lt_iff_le_and_ne, Name.le_iff, covers_iff, ← Name.eq_bot, eq_comm (a := n.bytes), ← Name.ext_iff]
  constructor
  · rintro ⟨hbot | heq | hanc, hne⟩
    · exact .inl ⟨hbot, fun hn => hne (hbot.trans hn.symm)⟩
    · exact absurd heq hne
    · exact .inr hanc
  · rintro (⟨hbot, hne⟩ | hanc)
    · exact ⟨.inl hbot, fun heq => hne (heq ▸ hbot)⟩
    · exact ⟨.inr (.inr hanc), fun heq => Nat.lt_irrefl _ (heq ▸ hanc.length)⟩

/-! ## The store -/

abbrev Store := Hierarchy Name Value .registry

namespace Store

/-- What a call finds under a name. -/
def lookup (a : Store) (name : Bytes) : Except Status Value :=
  if h : nr_reg_is_valid name = .ok then (a.value ⟨name, h⟩).elim (.error .R_NOT_FOUND) .ok else .error .R_BAD_ARGS

open Classical in
/-- A setter stores its value where there is none or one of its type, below
directories only. -/
noncomputable def set (a : Store) (name : Bytes) (arg : Arg) : Status × Store :=
  if h : nr_reg_is_valid name = .ok then
    if hw : (∀ v, a.value ⟨name, h⟩ = some v → v.type = arg.type) ∧
        a.CanWrite ⟨name, h⟩ (arg.written (a.value ⟨name, h⟩)) then (.ok, a.write _ _ hw.2)
    else (.R_FAILED, a)
  else (.R_BAD_ARGS, a)

noncomputable def del (a : Store) (name : Bytes) : Status × Store :=
  if h : nr_reg_is_valid name = .ok then (.ok, a.erase ⟨name, h⟩) else (.R_BAD_ARGS, a)

def get (a : Store) (name : Bytes) (type : NR_REG_TYPE) (size : Nat) : Except Status Value :=
  (a.lookup name).bind fun v =>
    if v.type ≠ type then .error .R_FAILED else if size < v.size then .error .R_BAD_ARGS else .ok v

/-- The `length` of a string does without its terminator. -/
def lengthOf (name : Bytes) : Value → Nat
  | .array true content => (UInt32.ofNat content.length - 1).toNat
  | .array false content => content.length
  | .registry => name.length
  | .scalar v => nr_reg_compute_length name (.scalar v)

/-- Each stored name that satisfies `p`, once. -/
def Lists (a : Store) (p : Bytes → Prop) (l : List Bytes) : Prop :=
  l.Nodup ∧ ∀ n, n ∈ l ↔ p n ∧ ∃ v, a.lookup n = .ok v

/-- What a call answers, and the store behind it. -/
def Does (a : Store) : Call → Answer → Store → Prop
  | .set name arg, ans, a' => ans = .status (a.set name arg).1 ∧ a' = (a.set name arg).2
  | .del name, ans, a' => ans = .status (a.del name).1 ∧ a' = (a.del name).2
  | .fin _, ans, a' => ans = .status .ok ∧ a' = a
  | .get name type size, ans, a' => ans = .value (a.get name type size) ∧ a' = a
  | .get_length name, ans, a' => ans = .length ((a.lookup name).map (lengthOf name)) ∧ a' = a
  | .get_type name, ans, a' => ans = .type ((a.lookup name).map fun v => nr_reg_type_name v.type) ∧ a' = a
  | .get_child_count name, ans, a' => a' = a ∧
    -- the root counts everything below it
    ∃ l, a.Lists (fun n => if name = [] then n ≠ [] else Child name n) l ∧
      ans = .count ((a.lookup name).bind fun v =>
        if v = .registry then .ok (UInt32.ofNat l.length) else .error .R_FAILED)
  | .get_children name size, ans, a' => a' = a ∧
    ∃ l, a.Lists (Child name) l ∧
      ans = .children (if nr_reg_is_valid name ≠ .ok then .error .R_BAD_ARGS
        else if l.length < size then .ok (qsort l) else .error .R_BAD_ARGS)

/-- The setter finds something, or everything above its name is a valid name
and a directory or absent. -/
def Admits (a : Store) : Call → Prop
  | .set name _ => ∀ h : nr_reg_is_valid name = .ok, a.value ⟨name, h⟩ = none →
    ∀ m, Ancestor m name → ∃ hm : nr_reg_is_valid m = .ok,
      a.value ⟨m, hm⟩ = none ∨ a.value ⟨m, hm⟩ = some .registry
  | .get_children _ size => 0 < size
  | _ => True

end Store

/-! ## One call -/

/-- The registry is in order, and holds what the store does. -/
structure Refines (s : Reg) (a : Store) : Prop where
  sound : Sound s
  cbs : CInv s.cbs
  value : ∀ n : Name, s.map n.bytes = (a.value n).map some

section
variable {s s' : Reg} {a : Store} {name : Bytes}

/-- What there is under a name, and what the store finds there. -/
theorem Refines.lookup_cases (h : Refines s a) (name : Bytes) :
    (nr_reg_is_valid name ≠ .ok ∧ s.map name = none ∧ a.lookup name = .error .R_BAD_ARGS) ∨
    (∃ hv : nr_reg_is_valid name = .ok, s.ptr name = none ∧ a.value ⟨name, hv⟩ = none ∧
      a.lookup name = .error .R_NOT_FOUND) ∨
    (∃ (hv : nr_reg_is_valid name = .ok) (p : Ptr) (node : Node), s.ptr name = some p ∧ s.nodes p = some node ∧
      node.Ok ∧ a.value ⟨name, hv⟩ = some node.value ∧ a.lookup name = .ok node.value) := by
  by_cases hv : nr_reg_is_valid name = .ok
  · right
    have hval : s.map name = (a.value ⟨name, hv⟩).map some := h.value ⟨name, hv⟩
    cases ha : a.value ⟨name, hv⟩ with
    | none =>
      rw [ha] at hval
      exact .inl ⟨hv, map_none.1 hval, ha, by rw [Store.lookup, dif_pos hv, ha]; rfl⟩
    | some v =>
      rw [ha] at hval
      obtain ⟨p, node, hp, hn, rfl, -, hok⟩ := h.sound.1.node_of_map hval
      exact .inr ⟨hv, p, node, hp, hn, hok, ha, by rw [Store.lookup, dif_pos hv, ha]; rfl⟩
  · refine .inl ⟨hv, ?_, dif_neg hv⟩
    by_contra hne
    exact hv (valid_of_stored h.sound.1 hne)

theorem Refines.lookup_ok (h : Refines s a) {v : Value} : a.lookup name = .ok v ↔ s.map name = some (some v) := by
  rcases h.lookup_cases name with ⟨-, hm, hl⟩ | ⟨-, hp, -, hl⟩ | ⟨-, p, node, hp, hn, -, -, hl⟩
  · simp [hl, hm]
  · simp [hl, map_none.2 hp]
  · simp [hl, Reg.map, hp, hn]

theorem Refines.stored (h : Refines s a) : (∃ v, a.lookup name = .ok v) ↔ s.map name ≠ none := by
  constructor
  · rintro ⟨v, hv⟩
    rw [h.lookup_ok.1 hv]
    exact Option.some_ne_none _
  · intro hne
    obtain ⟨o, ho⟩ := Option.ne_none_iff_exists'.1 hne
    cases o with
    | none => exact absurd ho (h.sound.2.live name)
    | some v => exact ⟨v, h.lookup_ok.2 ho⟩

/-! ### Reads -/

/-- Every getter fails where no node is found. -/
theorem getter_error {r : Status} (hf : ∀ type, nr_reg_fetch_node s name type = some (.error r)) (size : Nat)
    (type : NR_REG_TYPE) : getter s name size type = some (.error r) := by
  cases type <;> simp [getter, nr_reg_local_get_char, nr_reg_local_get_uchar, nr_reg_local_get_int2,
    nr_reg_local_get_uint2, nr_reg_local_get_int4, nr_reg_local_get_uint4, nr_reg_local_get_int8,
    nr_reg_local_get_uint8, nr_reg_local_get_double, nr_reg_local_get_registry, nr_reg_local_get_bytes,
    nr_reg_local_get_string, nr_reg_get_array, nr_reg_get, hf, Except.map]

theorem Refines.get (h : Refines s a) (name : Bytes) (type : NR_REG_TYPE) (size : Nat) :
    getter s name size type = some (a.get name type size) := by
  rcases h.lookup_cases name with ⟨hv, -, hl⟩ | ⟨hv, hp, -, hl⟩ | ⟨-, p, node, hp, hn, -, -, hl⟩
  · rw [Store.get, hl]
    exact getter_error (fun t => by rw [fetch_node_invalid hv, (is_valid_cases name).resolve_left hv]) size type
  · rw [Store.get, hl]
    exact getter_error (fun t => by rw [h.sound.1.fetch_node hv, hp]) size type
  · rw [Store.get, hl, getter_stored h.sound.1 (by rw [Reg.map, hp, Option.map_some, hn, Option.map_some])]
    rfl

theorem lengthOf_value (name : Bytes) {node : Node} (hok : node.Ok) :
    nr_reg_compute_length name node = Store.lengthOf name node.value := by
  cases node with
  | scalar v => rfl
  | registry => rfl
  | array string length data =>
    have hlen : (data.take length.toNat).length = length.toNat := by
      rw [List.length_take]
      exact Nat.min_eq_left hok
    cases string with
    | true => simp [nr_reg_compute_length, Node.value, Store.lengthOf, hlen]
    | false => simp [nr_reg_compute_length, Node.value, Store.lengthOf, hlen]

theorem Refines.get_length (h : Refines s a) (name : Bytes) :
    nr_reg_local_get_length s name = some ((a.lookup name).map (Store.lengthOf name)) := by
  rcases h.lookup_cases name with ⟨hv, -, hl⟩ | ⟨hv, hp, -, hl⟩ | ⟨-, p, node, hp, hn, hok, -, hl⟩
  · rw [nr_reg_local_get_length, if_pos hv, hl, (is_valid_cases name).resolve_left hv]
    rfl
  · rw [nr_reg_local_get_length, if_neg (by simp [hv]), h.sound.1.fetch_ptr, hp, hl]
    rfl
  · rw [get_length_stored h.sound.1 hp hn, hl, lengthOf_value name hok]
    rfl

theorem Refines.get_type (h : Refines s a) (name : Bytes) :
    NR_reg_get_type s name = some ((a.lookup name).map fun v => nr_reg_type_name v.type) := by
  rcases h.lookup_cases name with ⟨hv, -, hl⟩ | ⟨hv, hp, -, hl⟩ | ⟨-, p, node, hp, hn, -, -, hl⟩
  · rw [NR_reg_get_type, if_pos hv, hl, (is_valid_cases name).resolve_left hv]
    rfl
  · rw [NR_reg_get_type, if_neg (by simp [hv]), h.sound.1.fetch_ptr, hp, hl]
    rfl
  · rw [get_type_stored h.sound.1 (by rw [Reg.map, hp, Option.map_some, hn, Option.map_some]), hl]
    rfl

/-- What the root counts, and what other names do. -/
theorem mem_counted (h : RInv s) {n : Bytes} :
    n ∈ counted_names s name ↔ (if name = [] then n ≠ [] else Child name n) ∧ s.map n ≠ none := by
  by_cases hp : name = []
  · subst hp
    rw [counted_names, List.mem_filter, List.mem_filter, (iter_reads h).2.1, if_pos rfl]
    constructor
    · rintro ⟨⟨hn, -⟩, hc⟩
      refine ⟨?_, hn⟩
      rintro rfl
      simp [counted] at hc
    · rintro ⟨hne, hn⟩
      refine ⟨⟨hn, covers_iff.2 (.inl rfl)⟩, ?_⟩
      -- a valid name does not start with a dot
      have hhead := (is_valid_iff.1 (valid_of_stored h hn)).2.1
      rw [counted, if_neg (by simpa [List.head?_eq_getElem?] using hhead)]
      simp [hne]
  · rw [counted_names_eq hp, mem_children h, if_neg hp]

theorem Refines.get_child_count (h : Refines s a) (name : Bytes) :
    ∃ l, a.Lists (fun n => if name = [] then n ≠ [] else Child name n) l ∧
      nr_reg_local_get_child_count s name = some ((a.lookup name).bind fun v =>
        if v = .registry then .ok (UInt32.ofNat l.length) else .error .R_FAILED) := by
  refine ⟨counted_names s name, ⟨counted_names_nodup h.sound.1, fun n => ?_⟩, ?_⟩
  · rw [mem_counted h.sound.1, h.stored]
  rcases h.lookup_cases name with ⟨hv, -, hl⟩ | ⟨hv, hp, -, hl⟩ | ⟨-, p, node, hp, hn, -, -, hl⟩
  · rw [nr_reg_local_get_child_count, fetch_node_invalid hv, (is_valid_cases name).resolve_left hv, hl]
    rfl
  · rw [nr_reg_local_get_child_count, h.sound.1.fetch_node hv, hp, hl]
    rfl
  · have hmap : s.map name = some (some node.value) := by rw [Reg.map, hp, Option.map_some, hn, Option.map_some]
    rw [hl]
    by_cases hreg : node.type = .REGISTRY
    · obtain rfl := registry_of_type hreg
      rw [child_count_eq h.sound.1 hmap]
      rfl
    · have hne : node.value ≠ .registry := fun he => hreg (by rw [← Node.value_type, he]; rfl)
      rw [nr_reg_local_get_child_count, fetch_stored h.sound.1 hp hn, if_pos hreg]
      dsimp only [Except.bind]
      rw [if_neg hne]

theorem Refines.get_children (h : Refines s a) (name : Bytes) {size : Nat} (hsize : 0 < size) :
    ∃ l, a.Lists (Child name) l ∧ nr_reg_local_get_children s name size =
      some (if nr_reg_is_valid name ≠ .ok then .error .R_BAD_ARGS
        else if l.length < size then .ok (qsort l) else .error .R_BAD_ARGS) := by
  refine ⟨child_names s name, ⟨children_nodup h.sound.1, fun n => ?_⟩, ?_⟩
  · rw [mem_children h.sound.1, h.stored]
  · by_cases hv : nr_reg_is_valid name = .ok
    · rw [get_children_eq h.sound.1 hv hsize, if_neg (not_not.2 hv)]
    · rw [nr_reg_local_get_children, if_pos hv, if_pos hv, (is_valid_cases name).resolve_left hv]

/-! ### Writes -/

theorem Refines.write (h : Refines s a) (hs : Sound s') (hc : CInv s'.cbs) {n : Name} {v : Value} (hw : a.CanWrite n v)
    (here : s'.map n.bytes = some (some v)) (above : ∀ m < n, s'.map m.bytes = some (some .registry))
    (other : ∀ m, ¬ m ≤ n → s'.map m.bytes = s.map m.bytes) : Refines s' (a.write n v hw) where
  sound := hs
  cbs := hc
  value m := by
    by_cases hm : m ≤ n
    · rcases hm.eq_or_lt with rfl | hlt
      · rw [Hierarchy.write_self, here]
        rfl
      · rw [Hierarchy.write_above hw hlt, above m hlt]
        rfl
    · rw [Hierarchy.write_other hw hm, other m hm, h.value m]

/-- A call keeps the two tables in order. -/
theorem step_sound (h : Refines s a) {op : RegOp} (hs : Safe s op) {r : Status} (hst : regStep idle s op = some (r, s')) :
    Sound s' ∧ CInv s'.cbs :=
  have hpub : pubStep idle s (.reg op) = some (r, s') := hst
  ⟨⟨step_rinv h.sound.1 hst, step_tree h.sound.1 h.sound.2 hs hst⟩, pubStep_cinv h.cbs hpub⟩

/-- A setter that finds a registry is the setter for one. -/
theorem written_registry {arg : Arg} (ht : Value.registry.type = arg.type) (old : Option Value) :
    arg.written old = .registry := by
  cases arg with
  | scalar d => cases d <;> cases ht
  | registry => rfl
  | bytes b => cases ht
  | string b => cases ht

theorem Refines.set (h : Refines s a) {arg : Arg} (hs : strands s name = false) {r : Status}
    (hst : Registry.set idle s name arg = some (r, s')) :
    r = (a.set name arg).1 ∧ Refines s' (a.set name arg).2 := by
  have hsafe : Safe s (.set name arg) := hs
  obtain ⟨hsound, hcbs⟩ := step_sound h hsafe hst
  rcases h.lookup_cases name with ⟨hv, -, -⟩ | ⟨hv, hp, hval, -⟩ | ⟨hv, p, node, hp, hn, -, hval, -⟩
  · rw [set_bad_name hv] at hst
    cases hst
    rw [Store.set, dif_neg hv]
    exact ⟨rfl, h⟩
  · -- a new name
    have hpf : parentsFail s name = false := by simpa [strands, hv, hp] using hs
    have hout : Outcome s name (arg.written none) (Registry.set idle s name arg) := set_new h.sound.1 hv hp arg
    have hr : r = .ok := by
      by_contra hne
      rw [hout.fail r s' hst hne] at hpf
      cases hpf
    subst hr
    have hc := (hout.ok s' hst).2
    have habove : ∀ m < (⟨name, hv⟩ : Name), (a.value m = none ∨ a.value m = some .registry) ∧
        s'.map m.bytes = some (some .registry) := by
      intro m hm
      rcases Name.lt_iff.1 hm with ⟨rfl, -⟩ | hanc
      · exact ⟨.inr a.root, hsound.2.root⟩
      · have hne : m.bytes ≠ name := fun he => Nat.lt_irrefl _ (he ▸ hanc.length)
        have hval := h.value m
        rcases ancestors_new_or_registry h.sound.2 hpf (mem_ancestors.2 hanc) with hnew | hreg
        · rw [newAncestors_absent_name hnew] at hval
          exact ⟨.inl (by simpa using hval.symm), by simp [hc.map, hne, hnew]⟩
        · rw [hreg] at hval
          refine ⟨.inr ?_, by simp [hc.map, hne, hreg]⟩
          obtain ⟨v, hv, hvs⟩ := Option.map_eq_some_iff.1 hval.symm
          rw [hv, Option.some.inj hvs]
    have hw : (∀ v, a.value ⟨name, hv⟩ = some v → v.type = arg.type) ∧
        a.CanWrite ⟨name, hv⟩ (arg.written (a.value ⟨name, hv⟩)) := by
      rw [hval]
      exact ⟨fun v hv => (by cases hv), fun m hm => (habove m hm).1, fun he => by rw [hval] at he; cases he⟩
    rw [Store.set, dif_pos hv, dif_pos hw]
    refine ⟨rfl, h.write hsound hcbs hw.2 ?_ (fun m hm => (habove m hm).2) fun m hm => ?_⟩
    · rw [hval]
      simp [hc.map]
    · have hne : m.bytes ≠ name := fun he => hm (le_of_eq (Name.ext he))
      have hnew : m.bytes ∉ newAncestors s name := fun hin =>
        hm (le_of_lt (Name.lt_iff.2 (.inr (newAncestors_ancestor hin))))
      simp [hc.map, hne, hnew]
  · by_cases ht : node.type = arg.type
    · obtain ⟨rfl, -, hmap, -⟩ := set_overwrites h.sound.1 hp hn ht r s' hst
      have hstored : s.map name ≠ none := by simp [Reg.map, hp]
      have hw : (∀ v, a.value ⟨name, hv⟩ = some v → v.type = arg.type) ∧
          a.CanWrite ⟨name, hv⟩ (arg.written (a.value ⟨name, hv⟩)) := by
        rw [hval]
        refine ⟨fun v hv => ?_, .of_stored (by simp [hval]) fun he => ?_⟩
        · cases hv
          rw [Node.value_type, ht]
        · rw [hval] at he
          have hreg := Option.some.inj he
          exact written_registry (by rw [← hreg, Node.value_type, ht]) _
      rw [Store.set, dif_pos hv, dif_pos hw]
      refine ⟨rfl, h.write hsound hcbs hw.2 ?_ (fun m hm => ?_) fun m hm => ?_⟩
      · rw [hmap, hval, Function.update_self]
      · rcases Name.lt_iff.1 hm with ⟨rfl, -⟩ | hanc
        · exact hsound.2.root
        · exact hsound.2.up name m.bytes (by simp [hmap]) hanc
      · rw [hmap, Function.update_of_ne fun he => hm (le_of_eq (Name.ext he))]
    · have hfail : Registry.set idle s name arg = some (.R_FAILED, s) := (set_stored_type h.sound.1 hp arg).2 node hn ht
      rw [hfail] at hst
      cases hst
      rw [Store.set, dif_pos hv, dif_neg]
      · exact ⟨rfl, h⟩
      · rintro ⟨htype, -⟩
        exact ht (by rw [← Node.value_type, htype _ hval])

theorem Refines.del (h : Refines s a) {r : Status} (hst : nr_reg_local_del idle s name = some (r, s')) :
    r = (a.del name).1 ∧ Refines s' (a.del name).2 := by
  have hsafe : Safe s (.del name) := trivial
  obtain ⟨hsound, hcbs⟩ := step_sound h hsafe hst
  by_cases hv : nr_reg_is_valid name = .ok
  · obtain ⟨rfl, -, hmap, -⟩ := del_spec h.sound.1 hv hst
    rw [Store.del, dif_pos hv]
    refine ⟨rfl, hsound, hcbs, fun m => ?_⟩
    by_cases hb : m = ⊥
    · rw [hb, Hierarchy.root]
      exact hsound.2.root
    · have hne : ¬ (name = [] ∧ m.bytes = []) := fun hm => hb (Name.eq_bot.2 hm.2)
      rw [hmap]
      dsimp only
      rw [if_neg hne]
      by_cases hc : covers name m.bytes = true
      · rw [Hierarchy.erase_below hb (Name.le_iff.2 hc), if_pos hc]
        rfl
      · rw [Hierarchy.erase_other hb (fun hle => hc (Name.le_iff.1 hle)), if_neg hc, h.value m]
  · rw [del_bad_name hv] at hst
    cases hst
    rw [Store.del, dif_neg hv]
    exact ⟨rfl, h⟩

/-- The last event of a key changes no name. -/
theorem Refines.fin (h : Refines s a) {r : Status} (hst : nr_reg_local_fin idle s name = some (r, s')) :
    r = .ok ∧ Refines s' a := by
  obtain ⟨rfl, hsame, -⟩ := raise_event_spec (by decide) hst
  have hpub : pubStep idle s (.fin name) = some (.ok, s') := hst
  refine ⟨rfl, ⟨hsame.inv h.sound.1, ?_⟩, pubStep_cinv h.cbs hpub, fun n => ?_⟩
  · rw [hsame.map]
    exact h.sound.2
  · rw [hsame.map]
    exact h.value n

/-- Missing ancestors can be created where each ancestor is a valid name, and a
registry or absent. -/
theorem parentsFail_iff (h : Sound s) : parentsFail s name = false ↔
    ∀ m, Ancestor m name → nr_reg_is_valid m = .ok ∧ (s.map m = none ∨ s.map m = some (some .registry)) := by
  induction hlen : name.length using Nat.strongRecOn generalizing name with
  | ind len ih =>
    cases hd : beforeLastDot name with
    | none => exact iff_of_true (parentsFail_none hd) fun m hm => absurd hm (not_ancestor hd)
    | some p =>
      by_cases hst : stops s p = true
      · rw [parentsFail_stop hd hst]
        constructor
        · intro hb m hm
          have hpf : parentsFail s name = false := (parentsFail_stop hd hst).trans hb
          rw [blocked, Bool.or_eq_false_iff, decide_eq_false_iff_not, not_not] at hb
          obtain ⟨q, hq⟩ : ∃ q, s.ptr p = some q := by
            rw [← Option.isSome_iff_exists]
            simpa [stops, hb.1] using hst
          have hreg : s.map m = some (some .registry) := by
            refine (ancestors_new_or_registry h.2 hpf (mem_ancestors.2 hm)).resolve_left fun hnew => ?_
            rw [newAncestors_stored hd hq] at hnew
            cases hnew
          exact ⟨valid_of_stored h.1 (by simp [hreg]), .inr hreg⟩
        · intro hall
          obtain ⟨hv, hreg⟩ := hall p ((ancestor_iff hd).2 (.inl rfl))
          obtain ⟨q, hq⟩ : ∃ q, s.ptr p = some q := by
            rw [← Option.isSome_iff_exists]
            simpa [stops, hv] using hst
          rcases hreg with hnone | hreg
          · rw [map_none, hq] at hnone
            cases hnone
          · obtain ⟨q', node, hq', hn, hval, -⟩ := h.1.node_of_map hreg
            have htype : node.type = .REGISTRY := by rw [← Node.value_type, hval]; rfl
            simp [blocked, hv, hq', hn, htype]
      · have hgo : stops s p = false := by simpa using hst
        obtain ⟨hv, hp⟩ : nr_reg_is_valid p = .ok ∧ s.ptr p = none := by simpa [stops] using hst
        rw [parentsFail_go hd hgo, ih p.length (hlen ▸ beforeLastDot_length hd) rfl]
        constructor
        · intro hall m hm
          rcases (ancestor_iff hd).1 hm with rfl | hm
          · exact ⟨hv, .inl (map_none.2 hp)⟩
          · exact hall m hm
        · intro hall m hm
          exact hall m ((ancestor_iff hd).2 (.inr hm))

/-- Where the setter is stranded, a name above it is not valid or is stored
with another type. -/
theorem Refines.proper_iff (h : Refines s a) (c : Call) : Proper s c ↔ a.Admits c := by
  cases c with
  | set name arg =>
    rw [Proper, Store.Admits, strands]
    rcases h.lookup_cases name with ⟨hv, -, -⟩ | ⟨hv, hp, hval, -⟩ | ⟨hv, p, node, hp, hn, -, hval, -⟩
    · exact iff_of_true (by simp [hv]) fun hv' => absurd hv' hv
    · have hpf : (decide (nr_reg_is_valid name = .ok) && (s.ptr name).isNone && parentsFail s name) = false ↔
          parentsFail s name = false := by simp [hv, hp]
      rw [hpf, parentsFail_iff h.sound]
      have hstored : ∀ m (hm : nr_reg_is_valid m = .ok), (s.map m = none ↔ a.value ⟨m, hm⟩ = none) ∧
          (s.map m = some (some .registry) ↔ a.value ⟨m, hm⟩ = some .registry) := by
        intro m hm
        have hval : s.map m = (a.value ⟨m, hm⟩).map some := h.value ⟨m, hm⟩
        rw [hval]
        cases a.value ⟨m, hm⟩ with
        | none => simp
        | some v => simp
      constructor
      · intro hall hv' _ m hanc
        obtain ⟨hm, hor⟩ := hall m hanc
        rw [(hstored m hm).1, (hstored m hm).2] at hor
        exact ⟨hm, hor⟩
      · intro hall m hanc
        obtain ⟨hm, hor⟩ := hall hv hval m hanc
        rw [← (hstored m hm).1, ← (hstored m hm).2] at hor
        exact ⟨hm, hor⟩
    · refine iff_of_true (by simp [hp]) fun hv' hnone => ?_
      rw [hval] at hnone
      cases hnone
  | get_children name size => exact Iff.rfl
  | _ => exact Iff.rfl

/-- Every call does what the store does. -/
theorem Refines.step (h : Refines s a) {c : Call} (hp : Proper s c) {ans : Answer} (hst : call s c = some (ans, s')) :
    ∃ a', a.Does c ans a' ∧ Refines s' a' := by
  cases c with
  | set name arg =>
    obtain ⟨⟨r, s₁⟩, hset, heq⟩ := Option.map_eq_some_iff.1 hst
    cases heq
    obtain ⟨hr, hs'⟩ := h.set hp hset
    exact ⟨_, ⟨congrArg Answer.status hr, rfl⟩, hs'⟩
  | del name =>
    obtain ⟨⟨r, s₁⟩, hdel, heq⟩ := Option.map_eq_some_iff.1 hst
    cases heq
    obtain ⟨hr, hs'⟩ := h.del hdel
    exact ⟨_, ⟨congrArg Answer.status hr, rfl⟩, hs'⟩
  | fin name =>
    obtain ⟨⟨r, s₁⟩, hfin, heq⟩ := Option.map_eq_some_iff.1 hst
    cases heq
    obtain ⟨hr, hs'⟩ := h.fin hfin
    exact ⟨_, ⟨congrArg Answer.status hr, rfl⟩, hs'⟩
  | get name type size =>
    rw [call, h.get] at hst
    cases hst
    exact ⟨a, ⟨rfl, rfl⟩, h⟩
  | get_length name =>
    rw [call, h.get_length] at hst
    cases hst
    exact ⟨a, ⟨rfl, rfl⟩, h⟩
  | get_type name =>
    rw [call, h.get_type] at hst
    cases hst
    exact ⟨a, ⟨rfl, rfl⟩, h⟩
  | get_child_count name =>
    obtain ⟨l, hl, hcount⟩ := h.get_child_count name
    rw [call, hcount] at hst
    cases hst
    exact ⟨a, ⟨rfl, l, hl, rfl⟩, h⟩
  | get_children name size =>
    obtain ⟨l, hl, hchildren⟩ := h.get_children name hp
    rw [call, hchildren] at hst
    cases hst
    exact ⟨a, ⟨rfl, l, hl, rfl⟩, h⟩

/-- And it returns. -/
theorem Refines.returns (h : Refines s a) {c : Call} (hp : Proper s c) : ∃ ans s', call s c = some (ans, s') := by
  have hquiet : Quiet idle s.cbs := quiet_of_zero h.cbs
  cases c with
  | set name arg =>
    obtain ⟨r, s', hst, -⟩ : Returns s.cbs (Registry.set idle s name arg) :=
      setter_returns h.sound.1 (h.sound.2.live_nodes.not_read name) hquiet arg
    exact ⟨_, s', by rw [call, hst]; rfl⟩
  | del name =>
    obtain ⟨r, s', hst, -⟩ : Returns s.cbs (nr_reg_local_del idle s name) :=
      del_returns h.sound.1 h.sound.2.live_nodes hquiet
    exact ⟨_, s', by rw [call, hst]; rfl⟩
  | fin name =>
    obtain ⟨r, s', hst, -⟩ : Returns s.cbs (nr_reg_local_fin idle s name) :=
      raise_event_returns hquiet rfl (by decide)
    exact ⟨_, s', by rw [call, hst]; rfl⟩
  | get name type size => exact ⟨_, s, by rw [call, h.get]; rfl⟩
  | get_length name => exact ⟨_, s, by rw [call, h.get_length]; rfl⟩
  | get_type name => exact ⟨_, s, by rw [call, h.get_type]; rfl⟩
  | get_child_count name =>
    obtain ⟨l, -, hcount⟩ := h.get_child_count name
    exact ⟨_, s, by rw [call, hcount]; rfl⟩
  | get_children name size =>
    obtain ⟨l, -, hchildren⟩ := h.get_children name hp
    exact ⟨_, s, by rw [call, hchildren]; rfl⟩

end

/-! ## Doing it again -/

/-- What a setter writes has its type. -/
theorem written_type {arg : Arg} {old : Option Value} (h : ∀ v, old = some v → v.type = arg.type) :
    (arg.written old).type = arg.type := by
  cases arg with
  | scalar d =>
    have hstored : (stored d).type = d.type := by
      unfold stored
      split
      · rfl
      · cases d <;> rfl
    cases old with
    | none => exact hstored
    | some v =>
      cases v with
      | scalar v =>
        show (if v.ne d then d else v).type = d.type
        split
        · rfl
        · exact h _ rfl
      | registry => exact hstored
      | array string content => exact hstored
  | registry => rfl
  | bytes b => rfl
  | string b => rfl

/-- A setter that finds what it wrote writes it again. -/
theorem written_again (arg : Arg) (old : Option Value) : arg.written (some (arg.written old)) = arg.written old := by
  have hagain : ∀ d v : Scalar, (if (if v.ne d then d else v).ne d then d else (if v.ne d then d else v)) = if v.ne d then d else v := by
    intro d v
    by_cases hne : v.ne d = true
    · rw [if_pos hne, ite_self]
    · rw [if_neg hne, if_neg hne]
  cases arg with
  | scalar d =>
    cases old with
    | none => exact congrArg Value.scalar (hagain d d.zeroed)
    | some v =>
      cases v with
      | scalar v => exact congrArg Value.scalar (hagain d v)
      | registry => exact congrArg Value.scalar (hagain d d.zeroed)
      | array string content => exact congrArg Value.scalar (hagain d d.zeroed)
  | registry => rfl
  | bytes b => rfl
  | string b => rfl

theorem Store.set_again (a : Store) (name : Bytes) (arg : Arg) : (a.set name arg).2.set name arg = a.set name arg := by
  by_cases hv : nr_reg_is_valid name = .ok
  · by_cases hw : (∀ v, a.value ⟨name, hv⟩ = some v → v.type = arg.type) ∧
        a.CanWrite ⟨name, hv⟩ (arg.written (a.value ⟨name, hv⟩))
    · have hset : a.set name arg = (.ok, a.write _ _ hw.2) := by rw [Store.set, dif_pos hv, dif_pos hw]
      have hself : (a.write _ _ hw.2).value ⟨name, hv⟩ = some (arg.written (a.value ⟨name, hv⟩)) := Hierarchy.write_self hw.2
      have hval : arg.written ((a.write _ _ hw.2).value ⟨name, hv⟩) = arg.written (a.value ⟨name, hv⟩) := by
        rw [hself, written_again]
      have htype : ∀ v, (a.write _ _ hw.2).value ⟨name, hv⟩ = some v → v.type = arg.type := by
        intro v hv'
        rw [hself] at hv'
        cases hv'
        exact written_type hw.1
      rw [hset]
      dsimp only
      rw [Store.set, dif_pos hv, dif_pos ⟨htype, hval.symm ▸ hw.2.again⟩]
      simp only [hval, Hierarchy.write_again]
    · have hset : a.set name arg = (.R_FAILED, a) := by rw [Store.set, dif_pos hv, dif_neg hw]
      rw [hset, hset]
  · have hset : a.set name arg = (.R_BAD_ARGS, a) := by rw [Store.set, dif_neg hv]
    rw [hset, hset]

theorem Store.del_again (a : Store) (name : Bytes) : (a.del name).2.del name = a.del name := by
  by_cases hv : nr_reg_is_valid name = .ok
  · simp only [Store.del, dif_pos hv, Hierarchy.erase_again]
  · simp only [Store.del, dif_neg hv]

/-- A setter that strands nothing strands nothing the next time. -/
theorem Store.admits_again {a : Store} {name : Bytes} {arg : Arg} (h : a.Admits (.set name arg)) :
    (a.set name arg).2.Admits (.set name arg) := by
  intro hv hnone m hm
  have hset : (a.set name arg).2 = a := by
    by_contra hne
    have hw : (∀ v, a.value ⟨name, hv⟩ = some v → v.type = arg.type) ∧
        a.CanWrite ⟨name, hv⟩ (arg.written (a.value ⟨name, hv⟩)) := by
      by_contra hw
      exact hne (by rw [Store.set, dif_pos hv, dif_neg hw])
    rw [Store.set, dif_pos hv, dif_pos hw] at hnone
    rw [Hierarchy.write_self] at hnone
    cases hnone
  rw [hset] at hnone ⊢
  exact h hv hnone m hm

/-! ## Runs -/

theorem init_refines {s₀ : Reg} (hi : nr_reg_local_init idle = some (.ok, s₀)) : Refines s₀ Hierarchy.empty := by
  obtain ⟨hinv, hmap, -⟩ := init_spec hi
  have hreach : Reaches idle Safe [] s₀ := ⟨s₀, hi, .nil⟩
  refine ⟨⟨hinv, hreach.tree⟩, safe_run_cinv hreach, fun n => ?_⟩
  rw [hmap, Hierarchy.empty]
  by_cases hn : n = ⊥
  · simp [hn, Name.bytes_bot]
  · have hb : n.bytes ≠ [] := fun hb => hn (Name.eq_bot.2 hb)
    simp [hn, hb]

/-- In every run of calls that strand no node, what the callers see is what the
store does; a call strands a node only where the store does not admit it, and
every other call returns. -/
theorem store_refines {s₀ s : Reg} (hi : nr_reg_local_init idle = some (.ok, s₀)) {evs : List (Call × Answer)}
    (hrun : Run call Proper s₀ evs s) :
    ∃ a, SpecRun Store.Does Hierarchy.empty evs a ∧ (∀ n : Name, s.map n.bytes = (a.value n).map some) ∧
      (∀ c, Proper s c ↔ a.Admits c) ∧ ∀ c, Proper s c → ∃ ans s', call s c = some (ans, s') := by
  have hstep : ∀ s a c ans s', Refines s a → Proper s c → call s c = some (ans, s') →
      ∃ a', Store.Does a c ans a' ∧ Refines s' a' := fun _ _ _ _ _ h hp hst => h.step hp hst
  obtain ⟨a, hspec, h⟩ := hrun.refines Refines (init_refines hi) hstep
  exact ⟨a, hspec, h.value, h.proper_iff, fun c hp => h.returns hp⟩

instance (s : Reg) (c : Call) : Decidable (Proper s c) :=
  match c with
  | .set name _ => inferInstanceAs (Decidable (strands s name = false))
  | .get_children _ size => inferInstanceAs (Decidable (0 < size))
  | .del _ | .fin _ | .get .. | .get_length _ | .get_type _ | .get_child_count _ => isTrue trivial

/-- Run a list of calls after `nr_reg_local_init`. -/
def calls (cs : List Call) : Option (List Answer × Reg) :=
  (nr_reg_local_init idle).bind fun x => if x.1 = .ok then exec call (fun s c => Proper s c) x.2 cs else none

theorem calls_run {cs : List Call} {answers : List Answer} {s : Reg} (h : calls cs = some (answers, s)) :
    ∃ s₀, nr_reg_local_init idle = some (.ok, s₀) ∧ Run call Proper s₀ (cs.zip answers) s := by
  obtain ⟨⟨r, s₀⟩, hi, he⟩ := Option.bind_eq_some_iff.1 h
  split at he
  · rename_i hr
    obtain rfl : r = .ok := hr
    exact ⟨s₀, hi, (Run.exec .nil he).mono fun _ _ hp => of_decide_eq_true hp⟩
  · cases he

/-- A value two levels down, read and listed, and the name above it erased. -/
theorem store_refines_two_levels : ∃ (s₀ s : Reg) (evs : List (Call × Answer)) (a : Store),
    Run call Proper s₀ evs s ∧ evs.map Prod.fst = [.set (str "a.b") (.bytes [1]), .get (str "a.b") .BYTES 1,
      .get_children (str "a") 2, .del (str "a")] ∧ SpecRun Store.Does Hierarchy.empty evs a := by
  have hex : (calls [.set (str "a.b") (.bytes [1]), .get (str "a.b") .BYTES 1, .get_children (str "a") 2,
      .del (str "a")]).any (fun x => x.1.length = 4) = true := by decide +kernel
  obtain ⟨⟨answers, s⟩, hcalls, hlen⟩ := (Option.any_eq_true _ _).1 hex
  obtain ⟨s₀, hi, hrun⟩ := calls_run hcalls
  obtain ⟨a, hspec, -⟩ := store_refines hi hrun
  refine ⟨s₀, s, _, a, hrun, ?_, hspec⟩
  rw [List.map_fst_zip]
  exact (of_decide_eq_true hlen : answers.length = 4).ge

end Nrappkit.Service
