import Nrappkit.Registry.Local
import Nrappkit.Registry.NameTable
/-!
# Invariants of the local registry

`RInv` holds in every state, also after a call that failed: the table is
represented, its keys are valid names, and no node is stored under two names.
A failed call may leave a name whose node was released; `Reg.map` shows such a
name as `some none`.
-/
open Lib Nrappkit.Assoc

namespace Nrappkit.Registry

/-! ## What the registry stores -/

/-- A type and a value. The content of a string has its terminator. -/
inductive Value where
  | scalar (v : Scalar)
  | registry
  | array (string : Bool) (content : Bytes)
  deriving DecidableEq

def Node.value : Node → Value
  | .scalar v => .scalar v
  | .registry => .registry
  | .array string length data => .array string (data.take length.toNat)

/-- The address of the node stored under a name. -/
def Reg.ptr (s : Reg) (name : Bytes) : Option Ptr := s.nr_registry.get (nameKey name)

/-- The map from names to types and values; `some none` is a name whose node
was released. -/
def Reg.map (s : Reg) (name : Bytes) : Option (Option Value) :=
  (s.ptr name).map fun p => (s.nodes p).map Node.value

structure RInv (s : Reg) : Prop where
  rep : ∃ cs, Rep s.nr_registry cs
  names : NameTable s.nr_registry s.brk nr_reg_rfree
  block : ∀ p string length data, s.nodes p = some (.array string length data) → length.toNat ≤ data.length

namespace RInv
variable {s : Reg}

theorem ptr_some (h : RInv s) {name : Bytes} {p : Ptr} (hp : s.ptr name = some p) :
    s.nr_registry.entry (nameKey name) = some (p, none, some nr_reg_rfree) ∧ p < s.brk ∧
      nr_reg_is_valid name = .ok := h.names.get_some hp

theorem ptr_inj (h : RInv s) {n n' : Bytes} {p : Ptr} (hn : s.ptr n = some p) (hn' : s.ptr n' = some p) : n = n' :=
  h.names.get_inj hn hn'

theorem ptr_none {name : Bytes} : s.ptr name = none ↔ s.nr_registry.entry (nameKey name) = none := by
  rw [Reg.ptr, r_assoc.get, Option.map_eq_none_iff]

theorem fetch_ptr (h : RInv s) (name : Bytes) : r_assoc_fetch s.nr_registry (nameKey name) =
    some (match s.ptr name with
      | some p => .ok p
      | none => .error .R_NOT_FOUND) := by
  obtain ⟨cs, hr⟩ := h.rep
  rw [hr.fetch_eq, Reg.ptr]
  cases s.nr_registry.get (nameKey name) <;> rfl

/-- The ways a node can be looked up. -/
theorem fetch_node (h : RInv s) {name : Bytes} (hv : nr_reg_is_valid name = .ok) (type : NR_REG_TYPE) :
    nr_reg_fetch_node s name type = match s.ptr name with
      | none => some (.error .R_NOT_FOUND)
      | some p => (s.nodes p).map fun node => if node.type ≠ type then .error .R_FAILED else .ok (p, node) := by
  unfold nr_reg_fetch_node
  rw [if_neg (by simp [hv]), h.fetch_ptr]
  cases s.ptr name <;> rfl

end RInv

theorem fetch_node_invalid {s : Reg} {name : Bytes} (hv : nr_reg_is_valid name ≠ .ok) (type : NR_REG_TYPE) :
    nr_reg_fetch_node s name type = some (.error (nr_reg_is_valid name)) := by
  unfold nr_reg_fetch_node
  rw [if_pos hv]

theorem is_valid_cases (name : Bytes) : nr_reg_is_valid name = .ok ∨ nr_reg_is_valid name = .R_BAD_ARGS := by
  unfold nr_reg_is_valid
  split
  · exact .inr rfl
  split
  · exact .inr rfl
  split
  · exact .inr rfl
  split
  · exact .inl rfl
  · exact .inr rfl

/-! ## Events -/

theorem fetch_status {δ : Type} {t : r_assoc δ} {key : Bytes} {r : Status}
    (h : r_assoc_fetch t key = some (.error r)) : r = .R_NOT_FOUND := by
  unfold r_assoc_fetch at h
  cases hb : r_assoc_fetch_bucket t key with
  | none => simp [hb] at h
  | some o => cases o <;> simp_all

theorem invoke_on_status {beh : nr_reg_cb_info → UInt8} {name : Bytes} {action : UInt8} {tmp : Bytes}
    {s s' : Cbs} {r : Status} {calls : List Invocation}
    (h : invoke_on beh name action tmp s = some (r, s', calls)) : r = .ok := by
  unfold invoke_on at h
  split at h
  · cases h
  · cases h
    rfl
  · rename_i r₁ hne hf
    exact absurd (fetch_status hf) hne
  · split at h
    · cases h
    · obtain ⟨x, -, heq⟩ := Option.map_eq_some_iff.1 h
      cases heq
      rfl

theorem recurse_status {beh : nr_reg_cb_info → UInt8} {name : Bytes} {action : UInt8} {n : Nat} {tmp : Bytes}
    {s s' : Cbs} {r : Status} {calls : List Invocation}
    (h : nr_reg_raise_event_recurse beh name action n tmp s = some (r, s', calls)) : r = .ok := by
  induction n generalizing tmp s calls with
  | zero => cases h
  | succ n ih =>
    unfold nr_reg_raise_event_recurse at h
    split at h
    · cases h
    · split at h
      · cases h
        rfl
      · obtain ⟨⟨r₁, s₁, c₁⟩, hr, heq⟩ := Option.map_eq_some_iff.1 h
        cases heq
        exact ih hr
    · rename_i hne hon
      exact absurd (invoke_on_status hon) hne

/-- An event raised by the registry has no failure to return. -/
theorem raise_status {beh : nr_reg_cb_info → UInt8} {name : Bytes} {action : UInt8} (ha : action ∈ CB_ACTIONS)
    {s s' : Cbs} {r : Status} {calls : List Invocation}
    (h : nr_reg_raise_event beh s name action = some (r, s', calls)) : r = .ok := by
  unfold nr_reg_raise_event at h
  rw [if_neg (by simp [nr_reg_validate_action, ha])] at h
  split at h
  · exact recurse_status h
  · cases h
    rfl

/-- The same table and nodes. -/
structure SameNodes (s s' : Reg) : Prop where
  table : s'.nr_registry = s.nr_registry
  nodes : s'.nodes = s.nodes
  brk : s'.brk = s.brk

theorem SameNodes.ptr {s s' : Reg} (h : SameNodes s s') : s'.ptr = s.ptr := by
  funext n
  rw [Reg.ptr, Reg.ptr, h.table]

theorem SameNodes.map {s s' : Reg} (h : SameNodes s s') : s'.map = s.map := by
  funext n
  rw [Reg.map, Reg.map, h.ptr, h.nodes]

theorem SameNodes.inv {s s' : Reg} (h : SameNodes s s') (hi : RInv s) : RInv s' := by
  obtain ⟨hrep, hnames, hblk⟩ := hi
  refine ⟨?_, ?_, ?_⟩ <;> simpa only [h.table, h.nodes, h.brk]

/-- Raising an event records it and touches no node. -/
theorem raise_event_spec {beh : nr_reg_cb_info → UInt8} {s s' : Reg} {name : Bytes} {action : UInt8} {r : Status}
    (ha : action ∈ CB_ACTIONS) (h : raise_event beh s name action = some (r, s')) :
    r = .ok ∧ SameNodes s s' ∧ s'.events = s.events ++ [(name, action)] := by
  obtain ⟨⟨r₁, cbs, calls⟩, hr, heq⟩ := Option.map_eq_some_iff.1 h
  cases heq
  exact ⟨raise_status ha hr, ⟨rfl, rfl, rfl⟩, rfl⟩

/-! ## Storing a new node -/

/-- The block of a node holds its content. -/
def Node.Ok : Node → Prop
  | .array _ length data => length.toNat ≤ data.length
  | _ => True

/-- Storing a new node under a name that is absent. -/
theorem insert_spec {s : Reg} (h : RInv s) {name : Bytes} (hv : nr_reg_is_valid name = .ok) (hp : s.ptr name = none)
    {node : Node} (hn : node.Ok) :
    ∃ t, r_assoc_insert s.nr_registry (nameKey name) s.brk none (some nr_reg_rfree) .R_ASSOC_NEW = some (.ok, t, []) ∧
      RInv { s with nr_registry := t, nodes := Function.update s.nodes s.brk (some node), brk := s.brk + 1 } ∧
      Reg.ptr { s with nr_registry := t, nodes := Function.update s.nodes s.brk (some node), brk := s.brk + 1 } =
        Function.update s.ptr name (some s.brk) := by
  obtain ⟨cs, hr⟩ := h.rep
  obtain ⟨t, cs', hi, hr', hent, -, -, -, -⟩ :=
    hr.insert_absent (RInv.ptr_none.1 hp) s.brk none (some nr_reg_rfree) .R_ASSOC_NEW
  refine ⟨t, hi, ⟨⟨cs', hr'⟩, h.names.insert hv hent, fun p st len data hnode => ?_⟩, ?_⟩
  · by_cases hps : p = s.brk
    · subst hps
      simp only [Function.update_self, Option.some.injEq] at hnode
      subst hnode
      exact hn
    · simp only [Function.update_of_ne hps] at hnode
      exact h.block p st len data hnode
  · funext n
    rw [Function.update_apply]
    exact NameTable.get_entry hent n

/-! ## The ancestors a new node needs -/

/-- The climb to the ancestors ends at `a`: it is no valid name, or is stored. -/
def stops (s : Reg) (a : Bytes) : Bool := nr_reg_is_valid a ≠ .ok || (s.ptr a).isSome

/-- `NR_reg_set_registry` fails on `a`: it is no valid name, or is stored with
another type. -/
def blocked (s : Reg) (a : Bytes) : Bool :=
  nr_reg_is_valid a ≠ .ok || ((s.ptr a).bind s.nodes).any (·.type ≠ .REGISTRY)

/-- Creating the missing ancestors of `name` fails. -/
def parentsFail (s : Reg) (name : Bytes) : Bool := ((ancestors name).find? (stops s)).any (blocked s)

/-- The missing ancestors of `name`, up to the first one that is stored. -/
def newAncestors (s : Reg) (name : Bytes) : List Bytes := (ancestors name).takeWhile fun a => (s.ptr a).isNone

section
variable {s s' : Reg} {name p : Bytes}

theorem parentsFail_none (h : beforeLastDot name = none) : parentsFail s name = false := by
  rw [parentsFail, ancestors_none h]
  rfl

theorem parentsFail_stop (h : beforeLastDot name = some p) (hs : stops s p = true) :
    parentsFail s name = blocked s p := by
  rw [parentsFail, ancestors_some h, List.find?_cons_of_pos hs, Option.any_some]

theorem parentsFail_go (h : beforeLastDot name = some p) (hs : stops s p = false) :
    parentsFail s name = parentsFail s p := by
  rw [parentsFail, ancestors_some h, List.find?_cons_of_neg (by simp [hs]), parentsFail]

theorem newAncestors_none (h : beforeLastDot name = none) : newAncestors s name = [] := by
  rw [newAncestors, ancestors_none h]
  rfl

theorem newAncestors_stored (h : beforeLastDot name = some p) {q : Ptr} (hp : s.ptr p = some q) :
    newAncestors s name = [] := by
  rw [newAncestors, ancestors_some h, List.takeWhile_cons_of_neg (by simp [hp])]

theorem newAncestors_absent (h : beforeLastDot name = some p) (hp : s.ptr p = none) :
    newAncestors s name = p :: newAncestors s p := by
  rw [newAncestors, ancestors_some h, List.takeWhile_cons_of_pos (by simp [hp]), newAncestors]

/-- What the climb sees depends on the ancestors only. -/
theorem climb_congr (hp : ∀ a ∈ ancestors name, s'.ptr a = s.ptr a)
    (hn : ∀ a ∈ ancestors name, ∀ q, s.ptr a = some q → s'.nodes q = s.nodes q) :
    parentsFail s' name = parentsFail s name ∧ newAncestors s' name = newAncestors s name := by
  have hstop : ∀ a ∈ ancestors name, stops s' a = stops s a := fun a ha => by rw [stops, stops, hp a ha]
  have hblock : ∀ a ∈ ancestors name, blocked s' a = blocked s a := by
    intro a ha
    rw [blocked, blocked, hp a ha]
    cases hq : s.ptr a with
    | none => rfl
    | some q => simp only [Option.bind_some, hn a ha q hq]
  unfold parentsFail newAncestors
  generalize ancestors name = l at hp hstop hblock
  induction l with
  | nil => exact ⟨rfl, rfl⟩
  | cons a l ih =>
    obtain ⟨ih₁, ih₂⟩ := ih (fun b hb => hp b (by simp [hb])) (fun b hb => hstop b (by simp [hb]))
      fun b hb => hblock b (by simp [hb])
    constructor
    · rw [List.find?_cons, List.find?_cons, hstop a (by simp)]
      cases stops s a with
      | true => simp only [Option.any_some, hblock a (by simp)]
      | false => exact ih₁
    · rw [List.takeWhile_cons, List.takeWhile_cons, hp a (by simp), ih₂]

end

/-- What storing a new node under `name` changes, whether or not it fails: only
`name` and its missing ancestors get nodes, all of them new. -/
structure Grown (s : Reg) (name : Bytes) (s' : Reg) : Prop where
  inv : RInv s'
  brk : s.brk ≤ s'.brk
  nodes : ∀ q < s.brk, s'.nodes q = s.nodes q
  ptr : ∀ n, ¬ (n = name ∨ n ∈ ancestors name) → s'.ptr n = s.ptr n
  stored : ∀ n q, s.ptr n = some q → s'.ptr n = some q
  here : (s'.ptr name).isSome

/-- What it does when it succeeds. -/
structure Created (s : Reg) (name : Bytes) (v : Value) (s' : Reg) : Prop where
  map : s'.map = fun n => if n = name then some (some v)
    else if n ∈ newAncestors s name then some (some .registry) else s.map n
  events : s'.events = s.events ++ (newAncestors s name).reverse.map (·, NR_REG_CB_ACTION_ADD) ++
    [(name, NR_REG_CB_ACTION_ADD)]

/-- The outcomes of storing a new node with the value `v`. -/
structure Outcome (s : Reg) (name : Bytes) (v : Value) (o : Option (Status × Reg)) : Prop where
  grown : ∀ r s', o = some (r, s') → Grown s name s'
  ok : ∀ s', o = some (.ok, s') → parentsFail s name = false ∧ Created s name v s'
  fail : ∀ r s', o = some (r, s') → r ≠ .ok → parentsFail s name = true
  returns : parentsFail s name = true → ∃ r s', o = some (r, s') ∧ r ≠ .ok

section
variable {beh : nr_reg_cb_info → UInt8} {set_registry : Reg → Bytes → Option (Status × Reg)} {s : Reg} {name : Bytes}

theorem set_invalid (hv : nr_reg_is_valid name ≠ .ok) (data : Option Scalar) :
    nr_reg_set beh set_registry s name data = some (.R_BAD_ARGS, s) := by
  unfold nr_reg_set
  rw [fetch_node_invalid hv, (is_valid_cases name).resolve_left hv]

/-- A name stored with another type is refused; with a node that was released
the call is undefined. -/
theorem set_registry_stored (h : RInv s) {p : Ptr} (hp : s.ptr name = some p) :
    nr_reg_set beh set_registry s name none =
      (s.nodes p).map fun node => (if node.type ≠ .REGISTRY then .R_FAILED else .ok, s) := by
  unfold nr_reg_set
  rw [h.fetch_node (h.ptr_some hp).2.2, hp]
  dsimp only
  cases hn : s.nodes p with
  | none => rfl
  | some node =>
    by_cases ht : node.type = .REGISTRY
    · cases node <;> simp_all [scalarNode, Node.type]
    · rw [show (scalarNode none).type = .REGISTRY from rfl]
      simp [ht]

end

/-- The outcomes of creating the missing ancestors of a name. -/
structure ParentsOutcome (s : Reg) (name : Bytes) (o : Option (Status × Reg)) : Prop where
  inv : ∀ r s', o = some (r, s') → RInv s'
  brk : ∀ r s', o = some (r, s') → s.brk ≤ s'.brk
  nodes : ∀ r s', o = some (r, s') → ∀ q < s.brk, s'.nodes q = s.nodes q
  ptr : ∀ r s', o = some (r, s') → ∀ n, n ∉ ancestors name → s'.ptr n = s.ptr n
  stored : ∀ r s', o = some (r, s') → ∀ n q, s.ptr n = some q → s'.ptr n = some q
  ok : ∀ s', o = some (.ok, s') → parentsFail s name = false ∧
    (s'.map = fun n => if n ∈ newAncestors s name then some (some .registry) else s.map n) ∧
    s'.events = s.events ++ (newAncestors s name).reverse.map (·, NR_REG_CB_ACTION_ADD)
  fail : ∀ r s', o = some (r, s') → r ≠ .ok → parentsFail s name = true
  returns : parentsFail s name = true → ∃ r s', o = some (r, s') ∧ r ≠ .ok

/-- A call that returns at once, or not at all. -/
theorem ParentsOutcome.still {s : Reg} {name : Bytes} {o : Option (Status × Reg)} (h : RInv s)
    (ho : ∀ r s', o = some (r, s') → s' = s ∧ (r = .ok → parentsFail s name = false ∧ newAncestors s name = []) ∧
      (r ≠ .ok → parentsFail s name = true))
    (hret : parentsFail s name = true → ∃ r, o = some (r, s) ∧ r ≠ .ok) : ParentsOutcome s name o where
  inv r s' heq := (ho r s' heq).1 ▸ h
  brk r s' heq := (ho r s' heq).1 ▸ Nat.le_refl _
  nodes r s' heq q _ := by rw [(ho r s' heq).1]
  ptr r s' heq n _ := by rw [(ho r s' heq).1]
  stored r s' heq n q hq := by rwa [(ho r s' heq).1]
  ok s' heq := by
    obtain ⟨rfl, hok, -⟩ := ho _ s' heq
    obtain ⟨hpf, hnew⟩ := hok rfl
    simp [hpf, hnew]
  fail r s' heq hr := (ho r s' heq).2.2 hr
  returns hpf := by
    obtain ⟨r, heq, hr⟩ := hret hpf
    exact ⟨r, s, heq, hr⟩

/-- `nr_reg_set_parent_registries`, when the recursion does what it should on
shorter names. -/
theorem parents_spec {beh : nr_reg_cb_info → UInt8} {n : Nat}
    (hrec : ∀ s p, RInv s → p.length < n → nr_reg_is_valid p = .ok → s.ptr p = none →
      Outcome s p .registry (NR_reg_set_registry beh n s p))
    {s : Reg} (h : RInv s) {name : Bytes} (hn : name.length ≤ n) :
    ParentsOutcome s name (nr_reg_set_parent_registries (NR_reg_set_registry beh n) s name) := by
  unfold nr_reg_set_parent_registries
  cases hd : beforeLastDot name with
  | none =>
    refine .still h (fun r s' heq => ?_) fun hpf => ?_
    · cases heq
      exact ⟨rfl, fun _ => ⟨parentsFail_none hd, newAncestors_none hd⟩, fun hr => absurd rfl hr⟩
    · rw [parentsFail_none hd] at hpf
      cases hpf
  | some p =>
    have hlt := beforeLastDot_length hd
    obtain ⟨m, rfl⟩ : ∃ m, n = m + 1 := ⟨n - 1, by omega⟩
    by_cases hv : nr_reg_is_valid p = .ok
    · cases hp : s.ptr p with
      | some q =>
        have hstop : stops s p = true := by simp [stops, hp]
        have hpf := parentsFail_stop hd hstop
        have hnew := newAncestors_stored hd hp
        dsimp only
        rw [NR_reg_set_registry, set_registry_stored h hp]
        cases hnode : s.nodes q with
        | none =>
          have hf : parentsFail s name = false := by rw [hpf]; simp [blocked, hv, hp, hnode]
          exact .still h (fun r s' heq => by cases heq) fun ht => by rw [hf] at ht; cases ht
        | some node =>
          have hb : parentsFail s name = decide (node.type ≠ .REGISTRY) := by
            rw [hpf]
            simp [blocked, hv, hp, hnode]
          by_cases ht : node.type = .REGISTRY
          · refine .still h (fun r s' heq => ?_) fun hpf => ?_
            · simp only [Option.map_some, ht, ne_eq, not_true_eq_false, if_false] at heq
              cases heq
              exact ⟨rfl, fun _ => ⟨by simpa [ht] using hb, hnew⟩, fun hr => absurd rfl hr⟩
            · simp [hb, ht] at hpf
          · refine .still h (fun r s' heq => ?_) fun _ => ⟨.R_FAILED, by simp [ht], by decide⟩
            simp only [Option.map_some, ne_eq, ht, not_false_eq_true, if_true] at heq
            cases heq
            exact ⟨rfl, (by cases ·), fun _ => by simpa [ht] using hb⟩
      | none =>
        have hgo : stops s p = false := by simp [stops, hv, hp]
        have hpf := parentsFail_go hd hgo
        have hnew := newAncestors_absent hd hp
        have hanc := ancestors_some hd
        have hout := hrec s p h (by omega) hv hp
        refine ⟨fun r s' heq => (hout.grown r s' heq).inv, fun r s' heq => (hout.grown r s' heq).brk,
          fun r s' heq => (hout.grown r s' heq).nodes, fun r s' heq n hnm => (hout.grown r s' heq).ptr n ?_,
          fun r s' heq => (hout.grown r s' heq).stored, fun s' heq => ?_, fun r s' heq hr => ?_, fun ht => ?_⟩
        · rwa [hanc, List.mem_cons] at hnm
        · obtain ⟨hf, hmap, hev⟩ := hout.ok s' heq
          refine ⟨hpf.trans hf, ?_, ?_⟩
          · rw [hmap, hnew]
            funext k
            by_cases hk : k = p <;> simp [hk]
          · rw [hev, hnew]
            simp
        · rw [hpf]
          exact hout.fail r s' heq hr
        · exact hout.returns (hpf ▸ ht)
    · have hstop : stops s p = true := by simp [stops, hv]
      have hpf : parentsFail s name = true := by rw [parentsFail_stop hd hstop]; simp [blocked, hv]
      dsimp only
      rw [NR_reg_set_registry, set_invalid hv]
      refine .still h (fun r s' heq => ?_) fun _ => ⟨_, rfl, by decide⟩
      cases heq
      exact ⟨rfl, (by cases ·), fun _ => hpf⟩

theorem not_mem_ancestors (name : Bytes) : name ∉ ancestors name := fun h =>
  Nat.lt_irrefl _ (mem_ancestors.1 h).length

/-- `s₂` is `s` with a new node inserted, before the ancestors are created. -/
structure Inserted (s : Reg) (name : Bytes) (node : Node) (s₂ : Reg) : Prop where
  ptr : s₂.ptr = Function.update s.ptr name (some s.brk)
  nodes : s₂.nodes = Function.update s.nodes s.brk (some node)
  brk : s₂.brk = s.brk + 1
  events : s₂.events = s.events

namespace Inserted
variable {s s₂ s₃ s' : Reg} {name : Bytes} {node : Node} {o : Option (Status × Reg)} {r : Status}

theorem old (hi : Inserted s name node s₂) {q : Ptr} (hq : q < s.brk) : s₂.nodes q = s.nodes q := by
  rw [hi.nodes]
  exact Function.update_of_ne (Nat.ne_of_lt hq) ..

theorem new (hi : Inserted s name node s₂) : s₂.nodes s.brk = some node := by
  rw [hi.nodes, Function.update_self]

theorem other (hi : Inserted s name node s₂) {a : Bytes} (ha : a ≠ name) : s₂.ptr a = s.ptr a := by
  rw [hi.ptr, Function.update_of_ne ha]

theorem map (hi : Inserted s name node s₂) (h : RInv s) :
    s₂.map = Function.update s.map name (some (some node.value)) := by
  funext a
  by_cases ha : a = name
  · subst ha
    simp [Reg.map, hi.ptr, hi.new]
  · rw [Function.update_of_ne ha, Reg.map, Reg.map, hi.other ha]
    cases hq : s.ptr a with
    | none => rfl
    | some q => rw [Option.map_some, Option.map_some, hi.old (h.ptr_some hq).2.1]

/-- The climb from `name` does not see the new node. -/
theorem climb (hi : Inserted s name node s₂) (h : RInv s) :
    parentsFail s₂ name = parentsFail s name ∧ newAncestors s₂ name = newAncestors s name := by
  have hne : ∀ a ∈ ancestors name, a ≠ name := fun a ha he => not_mem_ancestors name (he ▸ ha)
  exact climb_congr (fun a ha => hi.other (hne a ha)) fun a _ q hq => hi.old (h.ptr_some hq).2.1

/-- Whatever came of the ancestors, the registry has grown by the node. -/
theorem grown (hi : Inserted s name node s₂) (hp : s.ptr name = none) (hpar : ParentsOutcome s₂ name o)
    (ho : o = some (r, s₃)) (hsame : SameNodes s₃ s') : Grown s name s' ∧ s'.nodes s.brk = some node := by
  have hq : ∀ q < s.brk + 1, s'.nodes q = s₂.nodes q := by
    intro q hq
    rw [hsame.nodes, hpar.nodes r s₃ ho q (by rw [hi.brk]; exact hq)]
  refine ⟨⟨hsame.inv (hpar.inv r s₃ ho), ?_, fun q hlt => ?_, fun m hm => ?_, fun m q hm => ?_, ?_⟩, ?_⟩
  · have hb := hpar.brk r s₃ ho
    rw [hi.brk] at hb
    rw [hsame.brk]
    exact Nat.le_of_succ_le hb
  · rw [hq q (Nat.lt_succ_of_lt hlt), hi.old hlt]
  · rw [not_or] at hm
    rw [hsame.ptr, hpar.ptr r s₃ ho m hm.2, hi.other hm.1]
  · have hne : m ≠ name := by
      rintro rfl
      rw [hp] at hm
      cases hm
    rw [hsame.ptr, hpar.stored r s₃ ho m q (by rw [hi.other hne, hm])]
  · rw [hsame.ptr, hpar.ptr r s₃ ho name (not_mem_ancestors name), hi.ptr, Function.update_self]
    rfl
  · rw [hq s.brk (Nat.lt_succ_self _), hi.new]

/-- With the ancestors there and the event raised, the node is created. -/
theorem created (hi : Inserted s name node s₂) (h : RInv s) (hpar : ParentsOutcome s₂ name o)
    (ho : o = some (.ok, s₃)) (hsame : SameNodes s₃ s')
    (hevents : s'.events = s₃.events ++ [(name, NR_REG_CB_ACTION_ADD)]) :
    parentsFail s name = false ∧ Created s name node.value s' := by
  obtain ⟨hf, hmap₃, hev₃⟩ := hpar.ok s₃ ho
  obtain ⟨hclimb, hnew⟩ := hi.climb h
  rw [hclimb] at hf
  refine ⟨hf, ?_, ?_⟩
  · rw [hsame.map, hmap₃, hi.map h, hnew]
    funext m
    by_cases hm : m = name
    · have hnot : name ∉ newAncestors s name := fun hin =>
        not_mem_ancestors name ((List.takeWhile_sublist _).subset hin)
      simp [hm, hnot]
    · simp [hm]
  · rw [hevents, hev₃, hi.events, hnew]

end Inserted

/-- Once the name is in the table, `nr_reg_insert_node` climbs to the parents and
announces the name. -/
theorem insert_climbs {beh : nr_reg_cb_info → UInt8} {set_registry : Reg → Bytes → Option (Status × Reg)} {s : Reg}
    {name : Bytes} {p : Ptr} {t : r_assoc Ptr} (hv : nr_reg_is_valid name = .ok)
    (hi : r_assoc_insert s.nr_registry (nameKey name) p none (some nr_reg_rfree) .R_ASSOC_NEW = some (.ok, t, [])) :
    nr_reg_insert_node beh set_registry s name p =
      match nr_reg_set_parent_registries set_registry { s with nr_registry := t } name with
      | none => none
      | some (.ok, s) => raise_event beh s name NR_REG_CB_ACTION_ADD
      | some (r, s) => some (r, s) := by
  unfold nr_reg_insert_node
  rw [if_neg (by simp [hv])]
  exact hi ▸ rfl

/-- `nr_reg_insert_node` on a new node, under the same condition. -/
theorem create_spec {beh : nr_reg_cb_info → UInt8} {n : Nat}
    (hrec : ∀ s p, RInv s → p.length < n → nr_reg_is_valid p = .ok → s.ptr p = none →
      Outcome s p .registry (NR_reg_set_registry beh n s p))
    {s : Reg} (h : RInv s) {name : Bytes} (hv : nr_reg_is_valid name = .ok) (hp : s.ptr name = none)
    (hn : name.length ≤ n) {node : Node} (hok : node.Ok) :
    Outcome s name node.value (nr_reg_insert_node beh (NR_reg_set_registry beh n)
        { s with nodes := Function.update s.nodes s.brk (some node), brk := s.brk + 1 } name s.brk) ∧
      ∀ r s', nr_reg_insert_node beh (NR_reg_set_registry beh n)
          { s with nodes := Function.update s.nodes s.brk (some node), brk := s.brk + 1 } name s.brk = some (r, s') →
        s'.nodes s.brk = some node := by
  obtain ⟨t, hi, hinv, hptr⟩ := insert_spec h hv hp hok
  have hpar := parents_spec hrec hinv hn
  have hins : Inserted s name node
      { s with nr_registry := t, nodes := Function.update s.nodes s.brk (some node), brk := s.brk + 1 } :=
    ⟨hptr, rfl, rfl, rfl⟩
  rw [insert_climbs (s := { s with nodes := Function.update s.nodes s.brk (some node), brk := s.brk + 1 }) hv hi]
  have hclimb := (hins.climb h).1
  generalize nr_reg_set_parent_registries (NR_reg_set_registry beh n) _ name = o at *
  cases o with
  | none =>
    refine ⟨⟨fun r s' hn => ?_, fun s' hn => ?_, fun r s' hn => ?_, fun hpf => ?_⟩, fun r s' hn => ?_⟩
    · cases hn
    · cases hn
    · cases hn
    · obtain ⟨r, s', hn, -⟩ := hpar.returns (hclimb.trans hpf)
      cases hn
    · cases hn
  | some x =>
    obtain ⟨r, s₃⟩ := x
    by_cases hr : r = .ok
    · subst hr
      dsimp only
      refine ⟨⟨fun r s' hra => ?_, fun s' hra => ?_, fun r s' hra hne => ?_, fun hpf => ?_⟩, fun r s' hra => ?_⟩
      · exact (hins.grown hp hpar rfl (raise_event_spec (by decide) hra).2.1).1
      · obtain ⟨-, hsame, hevents⟩ := raise_event_spec (by decide) hra
        exact hins.created h hpar rfl hsame hevents
      · exact absurd (raise_event_spec (by decide) hra).1 hne
      · rw [← hclimb, (hpar.ok s₃ rfl).1] at hpf
        cases hpf
      · exact (hins.grown hp hpar rfl (raise_event_spec (by decide) hra).2.1).2
    · have hmatch : (match some (r, s₃) with
          | none => none
          | some (.ok, s) => raise_event beh s name NR_REG_CB_ACTION_ADD
          | some (r, s) => some (r, s)) = some (r, s₃) := by
        cases r <;> first | rfl | exact absurd rfl hr
      rw [hmatch]
      have hself : SameNodes s₃ s₃ := ⟨rfl, rfl, rfl⟩
      refine ⟨⟨fun r' s' heq => ?_, fun s' heq => ?_, fun r' s' heq _ => ?_, fun _ => ⟨r, s₃, rfl, hr⟩⟩,
        fun r' s' heq => ?_⟩
      · cases heq
        exact (hins.grown hp hpar rfl hself).1
      · cases heq
        exact absurd rfl hr
      · rw [← hclimb]
        exact hpar.fail r s₃ rfl hr
      · cases heq
        exact (hins.grown hp hpar rfl hself).2

/-- The value a new scalar node ends up with. -/
def stored (d : Scalar) : Scalar := if d.zeroed.ne d then d else d.zeroed

/-- A failed `nr_reg_set` releases the node it stored. -/
theorem Grown.release {s s' : Reg} {name : Bytes} (h : Grown s name s') :
    Grown s name { s' with nodes := Function.update s'.nodes s.brk none } := by
  refine ⟨⟨h.inv.rep, h.inv.names, fun p st len data hn => ?_⟩, h.brk, fun q hq => ?_, h.ptr, h.stored,
    h.here⟩
  · by_cases hps : p = s.brk
    · subst hps
      simp only [Function.update_self] at hn
      cases hn
    · simp only [Function.update_of_ne hps] at hn
      exact h.inv.block p st len data hn
  · exact (Function.update_of_ne (Nat.ne_of_lt hq) ..).trans (h.nodes q hq)

/-- `nr_reg_set` makes a node for a name that is absent. -/
theorem set_makes {beh : nr_reg_cb_info → UInt8} {set_registry : Reg → Bytes → Option (Status × Reg)} {s : Reg}
    (h : RInv s) {name : Bytes} (hv : nr_reg_is_valid name = .ok) (hp : s.ptr name = none) (data : Option Scalar) :
    nr_reg_set beh set_registry s name data =
      match nr_reg_insert_node beh set_registry
        { s with nodes := Function.update s.nodes s.brk (some (scalarNode (data.map stored))), brk := s.brk + 1 }
        name s.brk with
      | none => none
      | some (.ok, s) => some (.ok, s)
      | some (r, s') => (free_nodes s'.nodes [(nr_reg_rfree, s.brk)]).map fun nodes => (r, { s' with nodes }) := by
  unfold nr_reg_set
  rw [h.fetch_node hv, hp]
  exact rfl

/-- `nr_reg_set` under a name that is absent. -/
theorem set_absent {beh : nr_reg_cb_info → UInt8} {n : Nat}
    (hrec : ∀ s p, RInv s → p.length < n → nr_reg_is_valid p = .ok → s.ptr p = none →
      Outcome s p .registry (NR_reg_set_registry beh n s p))
    {s : Reg} (h : RInv s) {name : Bytes} (hv : nr_reg_is_valid name = .ok) (hp : s.ptr name = none)
    (hn : name.length ≤ n) (data : Option Scalar) :
    Outcome s name (scalarNode (data.map stored)).value
      (nr_reg_set beh (NR_reg_set_registry beh n) s name data) := by
  have hok : (scalarNode (data.map stored)).Ok := by cases data <;> trivial
  obtain ⟨hout, hnode⟩ := create_spec hrec h hv hp hn hok
  have heq : nr_reg_set beh (NR_reg_set_registry beh n) s name data =
      (nr_reg_insert_node beh (NR_reg_set_registry beh n)
        { s with nodes := Function.update s.nodes s.brk (some (scalarNode (data.map stored))), brk := s.brk + 1 }
        name s.brk).bind fun r => if r.1 = .ok then some (.ok, r.2)
          else some (r.1, { r.2 with nodes := Function.update r.2.nodes s.brk none }) := by
    rw [set_makes h hv hp]
    generalize nr_reg_insert_node beh (NR_reg_set_registry beh n)
        { s with nodes := Function.update s.nodes s.brk (some (scalarNode (data.map stored))), brk := s.brk + 1 }
        name s.brk = o at hnode
    cases o with
    | none => rfl
    | some x =>
      obtain ⟨r, s'⟩ := x
      have hsome := hnode r s' rfl
      cases r <;> simp [free_nodes, hsome]
  rw [heq]
  generalize nr_reg_insert_node beh (NR_reg_set_registry beh n)
      { s with nodes := Function.update s.nodes s.brk (some (scalarNode (data.map stored))), brk := s.brk + 1 }
      name s.brk = o at hout
  cases o with
  | none =>
    refine ⟨fun r s' hn => ?_, fun s' hn => ?_, fun r s' hn => ?_, fun hpf => ?_⟩
    · cases hn
    · cases hn
    · cases hn
    · obtain ⟨r, s', hn, -⟩ := hout.returns hpf
      cases hn
  | some x =>
    obtain ⟨r, s'⟩ := x
    have hg := hout.grown r s' rfl
    rw [Option.bind_some]
    by_cases hr : r = .ok
    · subst hr
      rw [if_pos rfl]
      exact hout
    · rw [if_neg hr]
      refine ⟨fun r' s'' heq => ?_, fun s'' heq => ?_, fun r' s'' heq _ => hout.fail r s' rfl hr,
        fun _ => ⟨r, _, rfl, hr⟩⟩
      · cases heq
        exact hg.release
      · cases heq
        exact absurd rfl hr

/-- `NR_reg_set_registry` under a name that is absent. The induction is on the
depth of the recursion, which the length of the name bounds. -/
theorem set_registry_absent (beh : nr_reg_cb_info → UInt8) (n : Nat) {s : Reg} (h : RInv s) {name : Bytes}
    (hn : name.length < n) (hv : nr_reg_is_valid name = .ok) (hp : s.ptr name = none) :
    Outcome s name .registry (NR_reg_set_registry beh n s name) := by
  induction n generalizing s name with
  | zero => omega
  | succ n ih => exact set_absent (fun s p hs hlt hv hp => ih hs hlt hv hp) h hv hp (by omega) none

end Nrappkit.Registry
