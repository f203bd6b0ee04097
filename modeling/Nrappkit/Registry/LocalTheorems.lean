import Nrappkit.Registry.CallbackTheorems
import Nrappkit.Registry.LocalOps
/-!
# Theorems about the local registry

The machine is the registry after `nr_reg_local_init`; its inputs are the
setters, the deletion and the two functions of the callback table. A call that
stores a new node stores it before it creates the missing ancestors, so when
one of those is refused the node stays behind. `Safe` says that this does not
happen; every call that returns 0 is `Safe`, and runs of `Safe` calls keep the
stored names a `Tree`.
-/
open Lib Nrappkit.Assoc

namespace Nrappkit.Registry

/-! ## The machine -/

inductive RegOp where
  | set (name : Bytes) (arg : Arg)
  | del (name : Bytes)
  | callbacks (op : CbOp)

variable {beh : nr_reg_cb_info → UInt8}

def regStep (beh : nr_reg_cb_info → UInt8) (s : Reg) : RegOp → Option (Status × Reg)
  | .set name arg => set beh s name arg
  | .del name => nr_reg_local_del beh s name
  | .callbacks op => (cbStep s.cbs op).map fun r => (r.1, { s with cbs := r.2 })

/-- A run of calls, each allowed by `ok`, after `nr_reg_local_init`. -/
def Reaches (beh : nr_reg_cb_info → UInt8) (ok : Reg → RegOp → Prop) (evs : List (RegOp × Status)) (s : Reg) : Prop :=
  ∃ s₀, nr_reg_local_init beh = some (.ok, s₀) ∧ Run (regStep beh) ok s₀ evs s

/-- The setter finds nothing under a valid name, and cannot create the missing
ancestors: the nearest one that is stored has another type, or a name before
it is not valid. -/
def strands (s : Reg) (name : Bytes) : Bool :=
  nr_reg_is_valid name = .ok && (s.ptr name).isNone && parentsFail s name

/-- The call is not a setter that leaves a node without its ancestors. -/
def Safe (s : Reg) : RegOp → Prop
  | .set name _ => strands s name = false
  | _ => True

instance (s : Reg) (op : RegOp) : Decidable (Safe s op) :=
  match op with
  | .set name _ => inferInstanceAs (Decidable (strands s name = false))
  | .del _ => isTrue trivial
  | .callbacks _ => isTrue trivial

/-- Run a list of calls after `nr_reg_local_init`. -/
def trace (beh : nr_reg_cb_info → UInt8) (ok : Reg → RegOp → Bool) (ops : List RegOp) : Option (List Status × Reg) :=
  (nr_reg_local_init beh).bind fun x => if x.1 = .ok then exec (regStep beh) ok x.2 ops else none

theorem trace_reaches {ok : Reg → RegOp → Bool} {ops : List RegOp} {rs : List Status} {s : Reg}
    (h : trace beh ok ops = some (rs, s)) : Reaches beh (fun s op => ok s op) (ops.zip rs) s := by
  obtain ⟨⟨r, s₀⟩, hi, he⟩ := Option.bind_eq_some_iff.1 h
  split at he
  · rename_i hr
    obtain rfl : r = .ok := hr
    exact ⟨s₀, hi, Run.exec .nil he⟩
  · cases he

/-! ## One call -/

/-- What a setter that is `Safe` does: it is refused and changes nothing, it
overwrites a node of its type, or it stores a new one with its ancestors. -/
theorem set_cases {s s' : Reg} (h : RInv s) {name : Bytes} {arg : Arg} (hs : strands s name = false) {r : Status}
    (hst : set beh s name arg = some (r, s')) :
    (r ≠ .ok ∧ s' = s) ∨
    (∃ p node, s.ptr name = some p ∧ s.nodes p = some node ∧ node.type = arg.type ∧ r = .ok ∧ RInv s' ∧
      s'.map = Function.update s.map name (some (some (arg.written (some node.value)))) ∧
      s'.events = s.events ++ if arg.differs node.value then [(name, NR_REG_CB_ACTION_CHANGE)] else []) ∨
    (s.ptr name = none ∧ nr_reg_is_valid name = .ok ∧ parentsFail s name = false ∧ r = .ok ∧ RInv s' ∧
      Created s name (arg.written none) s') := by
  by_cases hv : nr_reg_is_valid name = .ok
  · cases hp : s.ptr name with
    | none =>
      have hpf : parentsFail s name = false := by simpa [strands, hv, hp] using hs
      have hout : Outcome s name (arg.written none) (set beh s name arg) := set_new h hv hp arg
      have hr : r = .ok := by
        by_contra hne
        rw [hout.fail r s' hst hne] at hpf
        cases hpf
      subst hr
      exact .inr (.inr ⟨rfl, hv, hpf, rfl, (hout.grown _ _ hst).inv, (hout.ok s' hst).2⟩)
    | some p =>
      have hstored : (s.nodes p = none → set beh s name arg = none) ∧
          ∀ node, s.nodes p = some node → node.type ≠ arg.type → set beh s name arg = some (.R_FAILED, s) :=
        set_stored_type h hp arg
      cases hn : s.nodes p with
      | none =>
        rw [hstored.1 hn] at hst
        cases hst
      | some node =>
        by_cases ht : node.type = arg.type
        · obtain ⟨hr, hinv, hmap, hev⟩ := set_overwrites h hp hn ht r s' hst
          exact .inr (.inl ⟨p, node, rfl, hn, ht, hr, hinv, hmap, hev⟩)
        · rw [hstored.2 node hn ht] at hst
          cases hst
          exact .inl ⟨by simp, rfl⟩
  · rw [set_bad_name hv] at hst
    cases hst
    exact .inl ⟨by simp, rfl⟩

/-- Where the setter strands a node, it returns an error with the name stored. -/
theorem set_strands {s : Reg} (h : RInv s) {name : Bytes} (arg : Arg) (hs : strands s name = true) :
    s.ptr name = none ∧ ∃ r s', set beh s name arg = some (r, s') ∧ r ≠ .ok ∧ RInv s' ∧ (s'.ptr name).isSome := by
  obtain ⟨⟨hv, hp⟩, hpf⟩ : (nr_reg_is_valid name = .ok ∧ s.ptr name = none) ∧ parentsFail s name = true := by
    simpa [strands] using hs
  have hout : Outcome s name (arg.written none) (set beh s name arg) := set_new h hv hp arg
  obtain ⟨r, s', hst, hne⟩ := hout.returns hpf
  exact ⟨hp, r, s', hst, hne, (hout.grown _ _ hst).inv, (hout.grown _ _ hst).here⟩

/-- Every call keeps the invariant. -/
theorem step_rinv {s s' : Reg} (h : RInv s) {op : RegOp} {r : Status} (hst : regStep beh s op = some (r, s')) :
    RInv s' := by
  cases op with
  | set name arg =>
    by_cases hs : strands s name = true
    · obtain ⟨-, r₁, s₁, hst₁, -, hinv, -⟩ : s.ptr name = none ∧ ∃ r s', set beh s name arg = some (r, s') ∧ r ≠ .ok ∧
          RInv s' ∧ (s'.ptr name).isSome := set_strands h arg hs
      rw [regStep, hst₁] at hst
      cases hst
      exact hinv
    · rcases set_cases h (by simpa using hs) hst with ⟨-, rfl⟩ | ⟨-, -, -, -, -, -, hinv, -⟩ | ⟨-, -, -, -, hinv, -⟩
      · exact h
      · exact hinv
      · exact hinv
  | del name =>
    by_cases hv : nr_reg_is_valid name = .ok
    · exact (del_spec h hv hst).2.1
    · rw [regStep, del_bad_name hv] at hst
      cases hst
      exact h
  | callbacks op =>
    obtain ⟨x, -, hx⟩ := Option.map_eq_some_iff.1 hst
    cases hx
    exact ⟨h.rep, h.names, h.block⟩

theorem emptyReg_ptr (n : Bytes) : emptyReg.ptr n = none := by
  rw [RInv.ptr_none]
  exact created_entry _

theorem emptyReg_inv : RInv emptyReg :=
  ⟨⟨_, created_rep⟩, NameTable.created _ _, fun p st len data hn => by cases hn⟩

/-- The registry after `nr_reg_local_init` is its root. -/
theorem init_spec {s₀ : Reg} (hi : nr_reg_local_init beh = some (.ok, s₀)) :
    RInv s₀ ∧ (s₀.map = fun n => if n = [] then some (some .registry) else none) ∧
      s₀.events = [([], NR_REG_CB_ACTION_ADD)] := by
  have hout := set_registry_absent beh ([] : Bytes).length.succ emptyReg_inv (Nat.lt_succ_self _) rfl (emptyReg_ptr [])
  obtain ⟨-, hmap, hev⟩ := hout.ok s₀ hi
  refine ⟨(hout.grown _ _ hi).inv, ?_, ?_⟩
  · rw [hmap, newAncestors_none rfl]
    funext n
    simp [Reg.map, emptyReg_ptr]
  · rw [hev, newAncestors_none rfl]
    rfl

theorem Reaches.mono {ok₁ ok₂ : Reg → RegOp → Prop} {evs : List (RegOp × Status)} {s : Reg}
    (h : Reaches beh ok₁ evs s) (himp : ∀ s op, ok₁ s op → ok₂ s op) : Reaches beh ok₂ evs s := by
  obtain ⟨s₀, hi, hrun⟩ := h
  exact ⟨s₀, hi, hrun.mono himp⟩

theorem Reaches.rinv {ok : Reg → RegOp → Prop} {evs : List (RegOp × Status)} {s : Reg} (h : Reaches beh ok evs s) :
    RInv s := by
  obtain ⟨s₀, hi, hrun⟩ := h
  exact hrun.inv RInv (init_spec hi).1 fun s op r s' hs _ hst => step_rinv hs hst

/-! ## The stored names are a tree -/

/-- The root is stored as a registry, so is every ancestor of a stored name,
and no name is left with a node that was released. -/
structure Tree (m : Bytes → Option (Option Value)) : Prop where
  root : m [] = some (some .registry)
  up : ∀ n a, m n ≠ none → Ancestor a n → m a = some (some .registry)
  live : ∀ n, m n ≠ some none

/-- What `nr_reg_local_iter` covers: everything below the root, and otherwise
the name and the names it is an ancestor of. -/
theorem covers_iff {pfx n : Bytes} : covers pfx n = true ↔ pfx = [] ∨ n = pfx ∨ Ancestor pfx n := by
  unfold covers
  simp only [Bool.or_eq_true, Bool.and_eq_true, decide_eq_true_eq, List.isEmpty_iff]
  constructor
  · rintro (h | ⟨h | ⟨hlt, hdot⟩, htake⟩)
    · exact .inl h
    · exact .inr (.inl (by rw [← htake, ← h, List.take_length]))
    · refine .inr (.inr ⟨n.drop (pfx.length + 1), ?_⟩)
      obtain ⟨hlt', hget⟩ := List.getElem?_eq_some_iff.1 hdot
      nth_rewrite 1 [← htake]
      rw [← hget, List.getElem_cons_drop, List.take_append_drop]
  · rintro (rfl | rfl | ⟨r, rfl⟩)
    · exact .inl rfl
    · exact .inr ⟨.inl rfl, List.take_length⟩
    · exact .inr ⟨.inr ⟨by simp, by simp⟩, by simp⟩

/-- What is below a name that is covered is covered too. -/
theorem covers_below {pfx a n : Bytes} (h : covers pfx a = true) (ha : Ancestor a n) : covers pfx n = true := by
  rw [covers_iff] at h ⊢
  rcases h with rfl | rfl | h
  · exact .inl rfl
  · exact .inr (.inr ha)
  · exact .inr (.inr (h.trans ha))

theorem map_none {s : Reg} {n : Bytes} : s.map n = none ↔ s.ptr n = none := by
  rw [Reg.map, Option.map_eq_none_iff]

theorem registry_of_type {node : Node} (h : node.type = .REGISTRY) : node = .registry := by
  cases node with
  | scalar v => cases v <;> cases h
  | registry => rfl
  | array string _ _ => cases string <;> cases h

/-- Where the ancestors can be created, each of them is new or stored as a
registry. -/
theorem ancestors_new_or_registry {s : Reg} (ht : Tree s.map) {name : Bytes} (hpf : parentsFail s name = false)
    {a : Bytes} (ha : a ∈ ancestors name) : a ∈ newAncestors s name ∨ s.map a = some (some .registry) := by
  induction hn : name.length using Nat.strongRecOn generalizing name with
  | ind k ih =>
    cases hd : beforeLastDot name with
    | none =>
      rw [ancestors_none hd] at ha
      cases ha
    | some p =>
      rw [ancestors_some hd, List.mem_cons] at ha
      by_cases hst : stops s p = true
      · rw [parentsFail_stop hd hst, blocked, Bool.or_eq_false_iff, decide_eq_false_iff_not, not_not] at hpf
        obtain ⟨hv, hany⟩ := hpf
        obtain ⟨q, hq⟩ : ∃ q, s.ptr p = some q := by
          rw [← Option.isSome_iff_exists]
          simpa [stops, hv] using hst
        have hreg : s.map p = some (some .registry) := by
          cases hnode : s.nodes q with
          | none => exact absurd (by rw [Reg.map, hq, Option.map_some, hnode]; rfl) (ht.live p)
          | some node =>
            have htype : node.type = .REGISTRY := by simpa [hq, hnode] using hany
            rw [Reg.map, hq, Option.map_some, hnode, registry_of_type htype]
            rfl
        rcases ha with rfl | ha
        · exact .inr hreg
        · exact .inr (ht.up p a (by simp [hreg]) (mem_ancestors.1 ha))
      · obtain ⟨-, hq⟩ : nr_reg_is_valid p = .ok ∧ s.ptr p = none := by simpa [stops] using hst
        rw [parentsFail_go hd (by simpa using hst)] at hpf
        rw [newAncestors_absent hd hq, List.mem_cons]
        rcases ha with rfl | ha
        · exact .inl (.inl rfl)
        · rcases ih p.length (hn ▸ beforeLastDot_length hd) hpf ha rfl with h | h
          · exact .inl (.inr h)
          · exact .inr h

theorem newAncestors_ancestor {s : Reg} {name a : Bytes} (h : a ∈ newAncestors s name) : Ancestor a name :=
  mem_ancestors.1 ((List.takeWhile_sublist _).subset h)

namespace Tree
variable {s s' : Reg} {name : Bytes}

theorem created (ht : Tree s.map) (hp : s.ptr name = none) (hpf : parentsFail s name = false) {v : Value}
    (hc : Created s name v s') : Tree s'.map := by
  have hname : s.map name = none := map_none.2 hp
  have hroot : ([] : Bytes) ≠ name := by
    rintro rfl
    rw [ht.root] at hname
    cases hname
  rw [hc.map]
  refine ⟨?_, fun n a hn ha => ?_, fun n hn => ?_⟩
  · simp only [if_neg hroot, ht.root]
    split <;> rfl
  · have hanc : ¬ a = name := by
      -- nothing above or beside the new name is below it
      rintro rfl
      by_cases hna : n = a
      · exact absurd ha.length (by rw [hna]; exact Nat.lt_irrefl _)
      · rw [if_neg hna] at hn
        by_cases hnew : n ∈ newAncestors s a
        · exact absurd (Nat.lt_trans ha.length (newAncestors_ancestor hnew).length) (Nat.lt_irrefl _)
        · rw [if_neg hnew] at hn
          rw [ht.up n a hn ha] at hname
          cases hname
    rw [if_neg hanc]
    have hreg : a ∈ newAncestors s name ∨ s.map a = some (some .registry) := by
      by_cases hnn : n = name
      · exact ancestors_new_or_registry ht hpf (mem_ancestors.2 (hnn ▸ ha))
      · rw [if_neg hnn] at hn
        by_cases hnew : n ∈ newAncestors s name
        · exact ancestors_new_or_registry ht hpf (mem_ancestors.2 (ha.trans (newAncestors_ancestor hnew)))
        · rw [if_neg hnew] at hn
          exact .inr (ht.up n a hn ha)
    rcases hreg with h | h
    · rw [if_pos h]
    · rw [h]
      split <;> rfl
  · split at hn
    · cases hn
    · split at hn
      · cases hn
      · exact ht.live n hn

theorem overwritten (ht : Tree s.map) {node : Node} {arg : Arg} (hm : s.map name = some (some node.value))
    (htype : node.type = arg.type) (hmap : s'.map = Function.update s.map name (some (some (arg.written (some node.value))))) :
    Tree s'.map := by
  by_cases hreg : node = .registry
  · subst hreg
    have hw : arg.written (some Node.registry.value) = Node.registry.value := by
      cases arg with
      | scalar d => cases d <;> cases htype
      | registry => rfl
      | bytes b => cases htype
      | string b => cases htype
    rw [hw, ← hm, Function.update_eq_self] at hmap
    rwa [hmap]
  · -- the name is neither the root nor an ancestor of a stored name
    have hne : s.map name ≠ some (some .registry) := by
      rw [hm]
      cases node <;> simp_all [Node.value]
    rw [hmap]
    refine ⟨?_, fun n a hn ha => ?_, fun n hn => ?_⟩
    · rw [Function.update_of_ne ?_, ht.root]
      rintro rfl
      exact hne ht.root
    · have hn' : s.map n ≠ none := by
        by_cases hnn : n = name
        · simp [hnn, hm]
        · rwa [Function.update_of_ne hnn] at hn
      have hup := ht.up n a hn' ha
      rw [Function.update_of_ne ?_, hup]
      rintro rfl
      exact hne hup
    · by_cases hnn : n = name
      · simp [hnn] at hn
      · rw [Function.update_of_ne hnn] at hn
        exact ht.live n hn

theorem deleted (ht : Tree s.map) (hmap : s'.map = fun m => if name = [] ∧ m = [] then some (some .registry)
    else if covers name m then none else s.map m) : Tree s'.map := by
  rw [hmap]
  refine ⟨?_, fun n a hn ha => ?_, fun n hn => ?_⟩
  · by_cases hname : name = []
    · simp [hname]
    · have hc : ¬ covers name [] = true := by
        rw [covers_iff]
        rintro (h | h | h)
        · exact hname h
        · exact hname h.symm
        · exact absurd h.length (by simp)
      simp [hname, hc, ht.root]
  · by_cases hroot : name = [] ∧ n = []
    · exact absurd ha.length (by simp [hroot.2])
    · rw [if_neg hroot] at hn
      by_cases hc : covers name n = true
      · simp [hc] at hn
      · rw [if_neg hc] at hn
        have hup := ht.up n a hn ha
        rw [if_neg (fun hca => hc (covers_below hca ha)), hup]
        split <;> rfl
  · split at hn
    · cases hn
    · split at hn
      · cases hn
      · exact ht.live n hn

end Tree

/-- A call that is `Safe` keeps the tree. -/
theorem step_tree {s s' : Reg} (h : RInv s) (ht : Tree s.map) {op : RegOp} (hs : Safe s op) {r : Status}
    (hst : regStep beh s op = some (r, s')) : Tree s'.map := by
  cases op with
  | set name arg =>
    rcases set_cases h hs hst with ⟨-, rfl⟩ | ⟨p, node, hp, hn, htype, -, -, hmap, -⟩ | ⟨hp, -, hpf, -, -, hc⟩
    · exact ht
    · exact ht.overwritten (by simp [Reg.map, hp, hn]) htype hmap
    · exact ht.created hp hpf hc
  | del name =>
    by_cases hv : nr_reg_is_valid name = .ok
    · exact ht.deleted (del_spec h hv hst).2.2.1
    · rw [regStep, del_bad_name hv] at hst
      cases hst
      exact ht
  | callbacks op =>
    obtain ⟨x, -, hx⟩ := Option.map_eq_some_iff.1 hst
    cases hx
    exact ht

theorem Reaches.tree {evs : List (RegOp × Status)} {s : Reg} (h : Reaches beh Safe evs s) : Tree s.map := by
  obtain ⟨s₀, hi, hrun⟩ := h
  obtain ⟨hinv, hmap, -⟩ := init_spec hi
  have ht₀ : Tree s₀.map := by
    rw [hmap]
    refine ⟨rfl, fun n a hn ha => ?_, fun n => ?_⟩
    · by_cases hnil : n = []
      · exact absurd ha.length (by simp [hnil])
      · simp [hnil] at hn
    · split <;> simp
  exact (hrun.inv (fun s => RInv s ∧ Tree s.map) ⟨hinv, ht₀⟩ fun s op r s' hs hok hst =>
    ⟨step_rinv hs.1 hst, step_tree hs.1 hs.2 hok hst⟩).2

/-- A call that returns 0 is `Safe`. -/
theorem safe_of_ok {s s' : Reg} (h : RInv s) {op : RegOp} (hst : regStep beh s op = some (.ok, s')) : Safe s op := by
  cases op with
  | set name arg =>
    show strands s name = false
    by_contra hs
    obtain ⟨-, r, s₁, hst₁, hne, -⟩ : s.ptr name = none ∧ ∃ r s', set beh s name arg = some (r, s') ∧ r ≠ .ok ∧
        RInv s' ∧ (s'.ptr name).isSome := set_strands h arg (by simpa using hs)
    rw [regStep, hst₁] at hst
    cases hst
    exact hne rfl
  | del name => trivial
  | callbacks op => trivial

/-- A run of calls that all return 0 is a run of `Safe` calls. -/
theorem Reaches.safe {evs : List (RegOp × Status)} {s : Reg} (h : Reaches beh (fun _ _ => True) evs s)
    (hok : ∀ e ∈ evs, e.2 = .ok) : Reaches beh Safe evs s := by
  obtain ⟨s₀, hi, hrun⟩ := h
  refine ⟨s₀, hi, ?_⟩
  induction hrun with
  | nil => exact .nil
  | @snoc evs s op r s' hr _ hst ih =>
    obtain rfl : r = .ok := hok (op, r) (by simp)
    have hinv : RInv s := Reaches.rinv ⟨s₀, hi, hr⟩
    exact .snoc (ih fun e he => hok e (by simp [he])) (safe_of_ok hinv hst) hst

/-! ## The hierarchy -/

/-- The root is stored as a registry, and so is every ancestor of a stored
name. -/
def Hierarchy (s : Reg) : Prop :=
  s.map [] = some (some .registry) ∧ ∀ n a, s.map n ≠ none → Ancestor a n → s.map a = some (some .registry)

/-- A setter that strands a node leaves it below an ancestor that is no
registry. -/
theorem strands_breaks {s s' : Reg} (h : RInv s) {name : Bytes} {arg : Arg} (hs : strands s name = true) {r : Status}
    (hst : set beh s name arg = some (r, s')) : ¬ Hierarchy s' := by
  obtain ⟨⟨hv, hp⟩, hpf⟩ : (nr_reg_is_valid name = .ok ∧ s.ptr name = none) ∧ parentsFail s name = true := by
    simpa [strands] using hs
  have hout : Outcome s name (arg.written none) (set beh s name arg) := set_new h hv hp arg
  have hg := hout.grown _ _ hst
  obtain ⟨a, hfind, hblock⟩ := (Option.any_eq_true _ _).1 hpf
  have hanc : Ancestor a name := mem_ancestors.1 (List.mem_of_find?_eq_some hfind)
  rintro ⟨-, hup⟩
  have hname : s'.map name ≠ none := by
    rw [ne_eq, map_none]
    exact Option.isSome_iff_ne_none.1 hg.here
  obtain ⟨q, hq, hnode⟩ := Option.map_eq_some_iff.1 (hup name a hname hanc)
  rw [blocked, Bool.or_eq_true, decide_eq_true_eq] at hblock
  rcases hblock with hbad | hother
  · exact hbad (hg.inv.ptr_some hq).2.2
  · obtain ⟨node, hbind, htype⟩ := (Option.any_eq_true _ _).1 hother
    obtain ⟨q', hq', hn⟩ := Option.bind_eq_some_iff.1 hbind
    rw [hg.stored a q' hq'] at hq
    cases hq
    rw [hg.nodes q (h.ptr_some hq').2.1, hn] at hnode
    cases node <;> simp_all [Node.value, Node.type]

/-- Runs in which no setter strands a node keep the hierarchy, and a setter in
such a run breaks it exactly when it strands one. -/
theorem hierarchy_iff_safe {evs : List (RegOp × Status)} {s : Reg} (h : Reaches beh Safe evs s) :
    Hierarchy s ∧ ∀ name arg r s', set beh s name arg = some (r, s') → (Hierarchy s' ↔ strands s name = false) := by
  have ht := h.tree
  refine ⟨⟨ht.root, ht.up⟩, fun name arg r s' hst => ⟨fun hh => ?_, fun hs => ?_⟩⟩
  · by_contra hs
    exact strands_breaks h.rinv (by simpa using hs) hst hh
  · have ht' : Tree s'.map := step_tree h.rinv ht (show Safe s (.set name arg) from hs) hst
    exact ⟨ht'.root, ht'.up⟩

/-- A name with its parent, both created by one call. -/
theorem hierarchy_two_levels :
    ∃ s, Reaches (fun _ => 0) Safe [(.set (str "a.b") (.scalar (._nr_int4 5)), .ok)] s ∧ Hierarchy s ∧
      s.map (str "a") = some (some .registry) := by
  have hex : (trace (fun _ => 0) (fun s op => Safe s op) [.set (str "a.b") (.scalar (._nr_int4 5))]).any (fun x =>
      x.1 = [.ok] && x.2.map (str "a.b") ≠ none) = true := by decide +kernel
  obtain ⟨⟨rs, s⟩, htr, hx⟩ := (Option.any_eq_true _ _).1 hex
  simp only [Bool.and_eq_true, decide_eq_true_eq] at hx
  obtain ⟨rfl, hstored⟩ := hx
  have hreach : Reaches (fun _ => 0) Safe _ s := (trace_reaches htr).mono fun _ _ h => of_decide_eq_true h
  have hh := (hierarchy_iff_safe hreach).1
  exact ⟨s, hreach, hh, hh.2 _ _ hstored ⟨str "b", rfl⟩⟩

/-- After the refused call `a.b` is stored below an integer. -/
theorem hierarchy_broken :
    ∃ s, Reaches (fun _ => 0) (fun _ _ => True) [(.set (str "a") (.scalar (._nr_int4 5)), .ok),
      (.set (str "a.b") (.scalar (._nr_int4 6)), .R_FAILED)] s ∧ ¬ Hierarchy s := by
  have hex : (trace (fun _ => 0) (fun _ _ => true) [.set (str "a") (.scalar (._nr_int4 5)),
      .set (str "a.b") (.scalar (._nr_int4 6))]).any (fun x => x.1 = [.ok, .R_FAILED] &&
        x.2.map (str "a.b") ≠ none && x.2.map (str "a") ≠ some (some .registry)) = true := by decide +kernel
  obtain ⟨⟨rs, s⟩, htr, hx⟩ := (Option.any_eq_true _ _).1 hex
  simp only [Bool.and_eq_true, decide_eq_true_eq] at hx
  obtain ⟨⟨rfl, hstored⟩, hparent⟩ := hx
  exact ⟨s, (trace_reaches htr).mono fun _ _ _ => trivial, fun hh => hparent (hh.2 _ _ hstored ⟨str "b", rfl⟩)⟩

end Nrappkit.Registry
