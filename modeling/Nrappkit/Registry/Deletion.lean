import Nrappkit.Registry.LocalProgress
/-!
# What a deletion removes

`nr_reg_local_del` unlinks elements of the table it walks. `iter_tested` is the
walk with the names it tests against the prefix; a deletion tests every stored
name once, and what is left is the old map without the subtree. That is all as
long as no node of the subtree was released before: a set that failed can have
left such a node in the table.
-/
open Lib Nrappkit.Assoc

namespace Nrappkit.Registry

/-! ## The names a walk tests -/

section
variable {α : Type}

/-- `iter_loop`, with the names it compares with the prefix, in order. -/
def iter_tested (action : α → Reg → r_assoc_iterator → Bytes → Ptr → Option (Status × α × Reg)) (pfx : Bytes) :
    Nat → α → Reg → r_assoc_iterator → List Bytes × Option (Status × α × Reg)
  | n, ptr, s, iter =>
    match iter.next, n with
    | none, _ => ([], some (.ok, ptr, s))
    | some _, 0 => ([], none)
    | some _, n + 1 =>
      match r_assoc_iter s.nr_registry iter with
      | none => ([], none)
      | some (.error _) => ([], some (.ok, ptr, s))
      | some (.ok ((key, node), iter)) =>
        if key.getLast? ≠ some 0 then ([], some (.ok, ptr, s))
        else
          let rest := if covers pfx key.dropLast then
              match action ptr s iter key.dropLast node with
              | none => ([], none)
              | some (.ok, ptr, s) => iter_tested action pfx n ptr s iter
              | some r => ([], some r)
            else iter_tested action pfx n ptr s iter
          (key.dropLast :: rest.1, rest.2)

/-- The names are observed, nothing else. -/
theorem iter_tested_loop (action : α → Reg → r_assoc_iterator → Bytes → Ptr → Option (Status × α × Reg)) (pfx : Bytes)
    (n : Nat) (ptr : α) (s : Reg) (iter : r_assoc_iterator) :
    (iter_tested action pfx n ptr s iter).2 = iter_loop action pfx n ptr s iter := by
  induction n generalizing ptr s iter with
  | zero =>
    unfold iter_tested iter_loop
    cases iter.next <;> rfl
  | succ n ih =>
    unfold iter_tested iter_loop
    cases iter.next with
    | none => rfl
    | some _ =>
      dsimp only
      cases r_assoc_iter s.nr_registry iter with
      | none => rfl
      | some res =>
        cases res with
        | error r => rfl
        | ok x =>
          obtain ⟨⟨key, node⟩, iter'⟩ := x
          dsimp only
          split
          · rfl
          · split
            · cases action ptr s iter' key.dropLast node with
              | none => rfl
              | some y =>
                obtain ⟨r, ptr', s'⟩ := y
                cases r <;> first | rfl | exact ih ptr' s' iter'
            · exact ih ptr s iter'

end

/-- The names that the walk of a deletion tests. -/
def tested (s : Reg) (name : Bytes) : List Bytes :=
  (iter_tested nr_reg_local_iter_delete name s.nr_registry.brk () s (r_assoc_init_iter s.nr_registry)).1

/-! ## The walk of a deletion -/

/-- An element is deleted only if its node was not released before. -/
theorem delete_one_live {s s' : Reg} (h : RInv s) {cs : Nat → List Ptr} (hr : Rep s.nr_registry cs) {p : Ptr}
    {e : r_assoc_el Ptr} (he : s.nr_registry.heap p = some e) {iter : r_assoc_iterator} (hprev : iter.prev = some p)
    (hmem : p ∈ cs iter.prev_chain.toNat) {key : Bytes} {r : Status} {u : Unit}
    (hd : nr_reg_local_iter_delete () s iter key e.data = some (r, u, s')) : (s.nodes e.data).isSome := by
  obtain ⟨t', e', he', hrel, -⟩ := hr.release_entry hmem
  rw [he] at he'
  cases he'
  have hdestroy := h.destroyCall hr he
  unfold nr_reg_local_iter_delete r_assoc_iter_delete at hd
  rw [hprev] at hd
  simp only [hrel, hdestroy, free_nodes] at hd
  split at hd
  · assumption
  · cases hd

/-- A walk that returns has tested every name it had to go through, and has
found the nodes it deleted alive. -/
theorem delete_loop_tested (pfx : Bytes) (rest : List Ptr) {n : Nat} {s s' : Reg} {cs : Nat → List Ptr} {pre : List Ptr}
    {iter : r_assoc_iterator} {r : Status} {u : Unit} (h : RInv s) (hr : Rep s.nr_registry cs)
    (ho : order s.nr_registry cs = pre ++ rest) (hat : At cs iter rest)
    (hd : iter_loop nr_reg_local_iter_delete pfx n () s iter = some (r, u, s')) :
    (iter_tested nr_reg_local_iter_delete pfx n () s iter).1 = (keysOf s.nr_registry rest).map List.dropLast ∧
      ∀ m q, covers pfx m = true → nameKey m ∈ keysOf s.nr_registry rest → s.ptr m = some q → (s.nodes q).isSome := by
  induction rest generalizing n s cs pre iter with
  | nil =>
    unfold iter_tested
    rw [hat.1]
    exact ⟨rfl, fun m q _ hm => by simp [keysOf] at hm⟩
  | cons p rest ih =>
    obtain ⟨e, iter', name, hel⟩ := h.walk_at hr ho hat
    have hdrop : (nameKey name).dropLast = name := List.dropLast_concat
    unfold iter_tested
    rw [hel.cur]
    cases n with
    | zero =>
      unfold iter_loop at hd
      rw [hel.cur] at hd
      cases hd
    | succ n =>
    rw [hel.iter_loop] at hd
    simp only [hel.read]
    rw [if_neg (by simp [nameKey]), hel.keys, List.map_cons, hdrop]
    by_cases hc : covers pfx name = true
    · rw [if_pos hc] at hd ⊢
      obtain ⟨⟨r₁, u₁, s₁⟩, hdel, hd⟩ := Option.bind_eq_some_iff.1 hd
      have hlive := delete_one_live h hr hel.elem hel.prev hel.mem hdel
      obtain ⟨rfl, hinv, hr', hsame, hbod, -, hptr₁, hnodes⟩ := delete_one h hr hel.elem hel.key hel.prev hel.mem hdel
      obtain ⟨hpr, ho', hat₁⟩ := hr.erase_passed hsame ho hel.next
      have hkeys : keysOf s₁.nr_registry rest = keysOf s.nr_registry rest := keysOf_released hbod hpr
      obtain ⟨htested, hrest⟩ := ih hinv hr' ho' hat₁ hd
      rw [hdel]
      refine ⟨by rw [← hkeys, ← htested], fun m q hcm hm hq => ?_⟩
      -- the other names keep their nodes, so the induction speaks of them
      by_cases hmn : m = name
      · rw [hmn, hel.ptr] at hq
        cases hq
        exact hlive
      · have hq₁ : s₁.ptr m = some q := by rw [hptr₁, if_neg hmn, hq]
        rw [← hnodes m q hq₁]
        refine hrest m q hcm ?_ hq₁
        rw [hkeys]
        exact (List.mem_cons.1 hm).resolve_left fun hk => hmn (nameKey_inj.1 hk)
    · -- the name is tested and passed over
      rw [if_neg hc] at hd ⊢
      have ho₂ : order s.nr_registry cs = (pre ++ [p]) ++ rest := by simpa using ho
      obtain ⟨htested, hrest⟩ := ih h hr ho₂ hel.next hd
      refine ⟨by rw [← htested], fun m q hcm hm hq => hrest m q hcm ?_ hq⟩
      refine (List.mem_cons.1 hm).resolve_left fun hk => hc ?_
      rwa [← nameKey_inj.1 hk]

/-- The walk of a deletion returns exactly when the nodes of the subtree are
alive, and then it has tested every stored name once. -/
theorem iter_delete_tested {s s' : Reg} (h : RInv s) {name : Bytes} {r : Status} {u : Unit}
    (hd : nr_reg_local_iter nr_reg_local_iter_delete name () s = some (r, u, s')) :
    LiveBelow s name ∧ (tested s name).Nodup ∧ ∀ n, n ∈ tested s name ↔ s.ptr n ≠ none := by
  obtain ⟨cs, hr⟩ := h.rep
  obtain ⟨hnodup, hmem⟩ := h.table_names hr
  obtain ⟨htested, hlive⟩ := delete_loop_tested name _ h hr (List.nil_append _).symm hr.init_iter hd
  rw [← htested] at hnodup hmem
  refine ⟨fun n q hc hq => hlive n q hc ?_ hq, hnodup, hmem⟩
  obtain ⟨p, e, he, hek, -⟩ := hr.get_eq_some.1 hq
  exact List.mem_filterMap.2 ⟨p, hr.mem_order.2 ⟨e, he⟩, by simp [he, hek]⟩

/-! ## The subtree -/

/-- The old map without `name` and everything below it; without everything but
a new root when `name` is the root. -/
def without (name : Bytes) (m : Bytes → Option (Option Value)) : Bytes → Option (Option Value) :=
  if name = [] then fun n => if n = [] then some (some .registry) else none
  else fun n => if n = name ∨ Ancestor name n then none else m n

/-- The events a deletion raises are dispatched to their end. -/
def Dispatches (beh : nr_reg_cb_info → UInt8) (cbs : Cbs) (name : Bytes) : Prop :=
  ∃ r cbs₁ calls, nr_reg_raise_event beh cbs name NR_REG_CB_ACTION_DELETE = some (r, cbs₁, calls) ∧
    (name = [] → nr_reg_raise_event beh cbs₁ [] NR_REG_CB_ACTION_ADD ≠ none)

/-- The deletion returns 0 and removes the subtree, and has tested every stored
name once. -/
def DeletesSubtree (beh : nr_reg_cb_info → UInt8) (s : Reg) (name : Bytes) : Prop :=
  ∃ s', nr_reg_local_del beh s name = some (.ok, s') ∧ s'.map = without name s.map ∧
    (tested s name).Nodup ∧ ∀ n, n ∈ tested s name ↔ s.map n ≠ none

section
variable {beh : nr_reg_cb_info → UInt8} {s : Reg} {name : Bytes}

theorem dispatches_of_quiet (hq : Quiet beh s.cbs) (name : Bytes) : Dispatches beh s.cbs name := by
  obtain ⟨calls, hdel⟩ := hq name NR_REG_CB_ACTION_DELETE (by decide)
  obtain ⟨calls', hadd⟩ := hq [] NR_REG_CB_ACTION_ADD (by decide)
  exact ⟨.ok, s.cbs, calls, hdel, fun _ => by simp [hadd]⟩

theorem liveBelow_iff : LiveBelow s name ↔ ∀ n, (name = [] ∨ n = name ∨ Ancestor name n) → s.map n ≠ some none := by
  constructor
  · intro hl n hn hmap
    obtain ⟨q, hq, hnode⟩ := Option.map_eq_some_iff.1 hmap
    have hlive := hl n q (covers_iff.2 hn) hq
    rw [Option.map_eq_none_iff.1 hnode] at hlive
    cases hlive
  · intro hl n q hc hq
    by_contra hdead
    refine hl n (covers_iff.1 hc) ?_
    rw [Reg.map, hq, Option.map_some, Option.not_isSome_iff_eq_none.1 hdead]
    rfl

/-- The root, stored again where nothing is stored. -/
theorem set_root_returns (h : RInv s) (hp : s.ptr [] = none)
    (hd : nr_reg_raise_event beh s.cbs [] NR_REG_CB_ACTION_ADD ≠ none) :
    ∃ r s', nr_reg_local_set_registry beh s [] = some (r, s') := by
  have hv : nr_reg_is_valid [] = .ok := rfl
  obtain ⟨t, hi, -⟩ := insert_spec h hv hp (show Node.registry.Ok from trivial)
  obtain ⟨x, hx⟩ := Option.ne_none_iff_exists'.1 hd
  unfold nr_reg_local_set_registry NR_reg_set_registry nr_reg_set
  rw [h.fetch_node hv, hp]
  have hinsert : ∃ y, nr_reg_insert_node beh (NR_reg_set_registry beh ([] : Bytes).length)
      { s with nodes := Function.update s.nodes s.brk (some .registry), brk := s.brk + 1 } [] s.brk = some y ∧
        y.1 = .ok := by
    unfold nr_reg_insert_node
    rw [if_neg (by simp [hv]), hi]
    dsimp only [nr_reg_set_parent_registries, beforeLastDot]
    have hstatus : x.1 = .ok := by
      apply raise_status _ hx
      decide
    refine ⟨(x.1, { s with
      nr_registry := t
      nodes := Function.update s.nodes s.brk (some .registry)
      brk := s.brk + 1
      cbs := x.2.1
      events := s.events ++ [([], NR_REG_CB_ACTION_ADD)] }), ?_, hstatus⟩
    rw [raise_event, hx]
    rfl
  obtain ⟨⟨r, s'⟩, heq, rfl⟩ := hinsert
  dsimp only [Option.map_none, scalarNode]
  rw [heq]
  exact ⟨_, _, rfl⟩

/-- A deletion whose events are dispatched returns when no node it deletes was
released before. -/
theorem del_returns_live (h : RInv s) (hv : nr_reg_is_valid name = .ok) (hd : Dispatches beh s.cbs name)
    (hl : LiveBelow s name) : ∃ r s', nr_reg_local_del beh s name = some (r, s') := by
  obtain ⟨cs, hr⟩ := h.rep
  obtain ⟨s₁, hloop, hcbs⟩ : ∃ s₁, nr_reg_local_iter nr_reg_local_iter_delete name () s = some (.ok, (), s₁) ∧
      s₁.cbs = s.cbs :=
    delete_loop_returns name _ h hl hr (List.nil_append _).symm hr.init_iter hr.order_length_le
  obtain ⟨-, hinv, -, hptr, -⟩ := iter_delete_spec h hloop
  obtain ⟨r, cbs₁, calls, hraise, hroot⟩ := hd
  obtain ⟨s₂, hev, hcbs₂⟩ : ∃ s₂, raise_event beh s₁ name NR_REG_CB_ACTION_DELETE = some (r, s₂) ∧ s₂.cbs = cbs₁ := by
    refine ⟨{ s₁ with cbs := cbs₁, events := s₁.events ++ [(name, NR_REG_CB_ACTION_DELETE)] }, ?_, rfl⟩
    rw [raise_event, hcbs, hraise]
    rfl
  obtain ⟨rfl, hsame, -⟩ := raise_event_spec (by decide) hev
  unfold nr_reg_local_del
  rw [if_neg (by simp [hv]), hloop]
  dsimp only
  rw [hev]
  dsimp only
  split
  · -- the root is stored again, where the walk has left nothing
    rename_i hname
    subst hname
    refine set_root_returns (hsame.inv hinv) ?_ ?_
    · rw [hsame.ptr, hptr]
      rfl
    · rw [hcbs₂]
      exact hroot rfl
  · exact ⟨_, _, rfl⟩

theorem without_eq : without name s.map = fun m =>
    if name = [] ∧ m = [] then some (some .registry) else if covers name m then none else s.map m := by
  funext m
  unfold without
  by_cases hname : name = []
  · subst hname
    by_cases hm : m = []
    · simp [hm]
    · simp [hm, covers]
  · simp only [hname, if_false, false_and]
    by_cases hm : m = name ∨ Ancestor name m
    · rw [if_pos hm, if_pos (covers_iff.2 (.inr hm))]
    · rw [if_neg hm, if_neg fun hc => hm ((covers_iff.1 hc).resolve_left hname)]

/-- In every state of the table, a deletion of a valid name removes exactly the
subtree if and only if no name in it refers to a released node. -/
theorem del_subtree_iff (h : RInv s) (hv : nr_reg_is_valid name = .ok) (hd : Dispatches beh s.cbs name) :
    DeletesSubtree beh s name ↔ ∀ n, (name = [] ∨ n = name ∨ Ancestor name n) → s.map n ≠ some none := by
  -- Every deletion that returns has finished the walk.
  have hwalk : ∀ {r s'}, nr_reg_local_del beh s name = some (r, s') →
      LiveBelow s name ∧ (tested s name).Nodup ∧ ∀ n, n ∈ tested s name ↔ s.ptr n ≠ none := by
    intro r s' hdel
    unfold nr_reg_local_del at hdel
    rw [if_neg (by simp [hv])] at hdel
    cases hloop : nr_reg_local_iter nr_reg_local_iter_delete name () s with
    | none =>
      rw [hloop] at hdel
      cases hdel
    | some x => exact iter_delete_tested h hloop
  rw [← liveBelow_iff]
  constructor
  · rintro ⟨s', hdel, -⟩
    exact (hwalk hdel).1
  · intro hl
    obtain ⟨r, s', hdel⟩ := del_returns_live h hv hd hl
    obtain ⟨rfl, -, hmap, -⟩ := del_spec h hv hdel
    obtain ⟨-, hnodup, hmem⟩ := hwalk hdel
    refine ⟨s', hdel, hmap.trans without_eq.symm, hnodup, fun n => ?_⟩
    rw [hmem, ne_eq, ne_eq, map_none]

end

/-- `foobar` stays when `foo` is deleted. -/
theorem del_subtree_foo :
    ∃ s, Reaches (fun _ => 0) Safe [(.set (str "foo.x") (.scalar (._nr_int4 1)), .ok),
      (.set (str "foobar") (.scalar (._nr_int4 2)), .ok)] s ∧ DeletesSubtree (fun _ => 0) s (str "foo") := by
  have hex : (trace (fun _ => 0) (fun s op => Safe s op) [.set (str "foo.x") (.scalar (._nr_int4 1)),
      .set (str "foobar") (.scalar (._nr_int4 2))]).any (fun x => x.1 = [.ok, .ok]) = true := by decide +kernel
  obtain ⟨⟨rs, s⟩, htr, hx⟩ := (Option.any_eq_true _ _).1 hex
  obtain rfl : rs = [.ok, .ok] := by simpa using hx
  have hreach : Reaches (fun _ => 0) Safe _ s := (trace_reaches htr).mono fun _ _ h => of_decide_eq_true h
  have hd : Dispatches (fun _ => 0) s.cbs (str "foo") := dispatches_of_quiet (quiet_of_zero (safe_run_cinv hreach)) _
  exact ⟨s, hreach, (del_subtree_iff hreach.rinv (by decide) hd).2 fun n _ => hreach.tree.live n⟩

/-- After a refused set of `a.b`, deleting `a` releases the node of `a.b` a
second time. -/
theorem del_subtree_twice_released :
    ∃ s, Reaches (fun _ => 0) (fun _ _ => True) [(.set (str "a") (.scalar (._nr_int4 5)), .ok),
        (.set (str "a.b") (.scalar (._nr_int4 6)), .R_FAILED)] s ∧
      nr_reg_is_valid (str "a") = .ok ∧ nr_reg_local_del (fun _ => 0) s (str "a") = none ∧
      ¬ DeletesSubtree (fun _ => 0) s (str "a") := by
  have hex : (trace (fun _ => 0) (fun _ _ => true) [.set (str "a") (.scalar (._nr_int4 5)),
      .set (str "a.b") (.scalar (._nr_int4 6))]).any (fun x => x.1 = [.ok, .R_FAILED] &&
        (nr_reg_local_del (fun _ => 0) x.2 (str "a")).isNone) = true := by decide +kernel
  obtain ⟨⟨rs, s⟩, htr, hx⟩ := (Option.any_eq_true _ _).1 hex
  simp only [Bool.and_eq_true, decide_eq_true_eq, Option.isNone_iff_eq_none] at hx
  obtain ⟨rfl, hdel⟩ := hx
  refine ⟨s, (trace_reaches htr).mono fun _ _ _ => trivial, by decide, hdel, ?_⟩
  rintro ⟨s', hdel', -⟩
  rw [hdel] at hdel'
  cases hdel'

end Nrappkit.Registry
