import Nrappkit.Registry.LocalTheorems
/-!
# Every call returns

`none` stands for a walk that leaves the tables, a node used after its release
and a recursion cut short. With callbacks that leave the callback table alone
none of these happens as long as no stored node was released.
-/
open Lib Nrappkit.Assoc

namespace Nrappkit.Registry

variable {beh : nr_reg_cb_info → UInt8} {s : Reg} {name : Bytes}

/-- Every dispatch returns 0 and leaves the callback table as it was. -/
def Quiet (beh : nr_reg_cb_info → UInt8) (cbs : Cbs) : Prop :=
  ∀ name, ∀ action ∈ CB_ACTIONS, ∃ calls, nr_reg_raise_event beh cbs name action = some (.ok, cbs, calls)

/-- The call returns, with the callback table as it was. -/
def Returns (cbs : Cbs) (o : Option (Status × Reg)) : Prop := ∃ r s', o = some (r, s') ∧ s'.cbs = cbs

theorem raise_event_returns {cbs : Cbs} (hq : Quiet beh cbs) (hs : s.cbs = cbs) {action : UInt8}
    (ha : action ∈ CB_ACTIONS) : Returns cbs (raise_event beh s name action) := by
  subst hs
  obtain ⟨calls, heq⟩ := hq name action ha
  refine ⟨.ok, { s with events := s.events ++ [(name, action)] }, ?_, rfl⟩
  rw [raise_event, heq]
  rfl

/-- Callbacks that unregister nothing are quiet. -/
theorem quiet_of_zero {cbs : Cbs} (h : CInv cbs) : Quiet (fun _ => 0) cbs := by
  intro name action ha
  rw [raise_eq _ ha]
  split
  · obtain ⟨s', heq, hleft⟩ := (recurse_spec (fun _ => 0) name action (name.length + 1) h (Nat.lt_succ_self _)).1
      fun k _ => safeFrom_zero
    exact ⟨_, by rw [heq, hleft.idle fun _ => rfl]⟩
  · exact ⟨[], rfl⟩

/-! ## Released nodes -/

/-- The node stored under the name was released. -/
def released (s : Reg) (name : Bytes) : Bool := (s.ptr name).any fun p => (s.nodes p).isNone

/-- A setter reads a released node: the first name it finds stored, its own or
that of an ancestor, has one. -/
def reads_released (s : Reg) (name : Bytes) : Bool := ((name :: ancestors name).find? (stops s)).any (released s)

/-- No stored node was released. -/
def Live (s : Reg) : Prop := ∀ n q, s.ptr n = some q → (s.nodes q).isSome

section
variable {s' : Reg} {p : Bytes}

theorem Live.not_released (hl : Live s) (n : Bytes) : released s n = false := by
  rw [Bool.eq_false_iff]
  intro hr
  obtain ⟨p, hp, hnone⟩ := (Option.any_eq_true _ _).1 hr
  rw [Option.isNone_iff_eq_none] at hnone
  have hsome := hl n p hp
  rw [hnone] at hsome
  cases hsome

theorem Live.not_read (hl : Live s) (name : Bytes) : reads_released s name = false := by
  rw [reads_released, Option.any_eq_false]
  exact fun n _ => by simp [hl.not_released n]

theorem reads_released_stop (hs : stops s name = true) : reads_released s name = released s name := by
  rw [reads_released, List.find?_cons_of_pos hs, Option.any_some]

theorem reads_released_none (hs : stops s name = false) (hd : beforeLastDot name = none) :
    reads_released s name = false := by
  rw [reads_released, List.find?_cons_of_neg (by simp [hs]), ancestors_none hd]
  rfl

theorem reads_released_go (hs : stops s name = false) (hd : beforeLastDot name = some p) :
    reads_released s name = reads_released s p := by
  rw [reads_released, List.find?_cons_of_neg (by simp [hs]), ancestors_some hd, reads_released]

/-- Only the name and its ancestors are looked at. -/
theorem reads_released_congr (hp : ∀ a ∈ name :: ancestors name, s'.ptr a = s.ptr a)
    (hn : ∀ a ∈ name :: ancestors name, ∀ q, s.ptr a = some q → s'.nodes q = s.nodes q) :
    reads_released s' name = reads_released s name := by
  unfold reads_released
  generalize name :: ancestors name = l at hp hn
  induction l with
  | nil => rfl
  | cons a l ih =>
    have hstop : stops s' a = stops s a := by rw [stops, stops, hp a List.mem_cons_self]
    rw [List.find?_cons, List.find?_cons, hstop]
    cases stops s a with
    | true =>
      rw [Option.any_some, Option.any_some, released, released, hp a List.mem_cons_self]
      cases hq : s.ptr a with
      | none => rfl
      | some q => rw [Option.any_some, Option.any_some, hn a List.mem_cons_self q hq]
    | false =>
      exact ih (fun b hb => hp b (List.mem_cons_of_mem _ hb)) fun b hb => hn b (List.mem_cons_of_mem _ hb)

/-- Under a new name, the climb starts at the parent; the new node is not
looked at. -/
theorem reads_released_inserted {node : Node} (h : RInv s) (hv : nr_reg_is_valid name = .ok) (hp : s.ptr name = none)
    (hi : Inserted s name node s') (hd : beforeLastDot name = some p) : reads_released s' p = reads_released s name := by
  have hstop : stops s name = false := by simp [stops, hv, hp]
  have hanc : p :: ancestors p = ancestors name := (ancestors_some hd).symm
  have hne : ∀ a ∈ p :: ancestors p, a ≠ name := by
    intro a ha heq
    rw [hanc, heq] at ha
    exact not_mem_ancestors name ha
  rw [reads_released_go hstop hd]
  exact reads_released_congr (fun a ha => hi.other (hne a ha)) fun a _ q hq => hi.old (h.ptr_some hq).2.1

end

/-! ## Storing a new node -/

section
variable {n : Nat}

/-- The state that `nr_reg_insert_node` is called in: the node is there, but not
in the table. -/
def allocated (s : Reg) (node : Node) : Reg :=
  { s with nodes := Function.update s.nodes s.brk (some node), brk := s.brk + 1 }

theorem insert_node_eq (set_registry : Reg → Bytes → Option (Status × Reg)) (h : RInv s) (hv : nr_reg_is_valid name = .ok)
    (hp : s.ptr name = none) {node : Node} (hok : node.Ok) :
    ∃ s₂, RInv s₂ ∧ Inserted s name node s₂ ∧ s₂.cbs = s.cbs ∧
      nr_reg_insert_node beh set_registry (allocated s node) name s.brk =
        match nr_reg_set_parent_registries set_registry s₂ name with
        | none => none
        | some (.ok, s) => raise_event beh s name NR_REG_CB_ACTION_ADD
        | some (r, s) => some (r, s) := by
  obtain ⟨t, hi, hinv, hptr⟩ := insert_spec h hv hp hok
  exact ⟨_, hinv, ⟨hptr, rfl, rfl, rfl⟩, rfl, insert_climbs (s := allocated s node) hv hi⟩

theorem insert_returns
    (hrec : ∀ s p, RInv s → reads_released s p = false → Quiet beh s.cbs → p.length < n →
      Returns s.cbs (NR_reg_set_registry beh n s p))
    (h : RInv s) (hl : reads_released s name = false) (hq : Quiet beh s.cbs) (hv : nr_reg_is_valid name = .ok)
    (hp : s.ptr name = none) (hn : name.length ≤ n) {node : Node} (hok : node.Ok) :
    Returns s.cbs (nr_reg_insert_node beh (NR_reg_set_registry beh n) (allocated s node) name s.brk) := by
  obtain ⟨s₂, hinv, hi, hcbs₂, heq⟩ := insert_node_eq (NR_reg_set_registry beh n) h hv hp hok
  rw [heq]
  have hpar : Returns s.cbs (nr_reg_set_parent_registries (NR_reg_set_registry beh n) s₂ name) := by
    unfold nr_reg_set_parent_registries
    cases hd : beforeLastDot name with
    | none => exact ⟨_, _, rfl, hcbs₂⟩
    | some p =>
      rw [← hcbs₂]
      refine hrec _ p hinv ?_ (hcbs₂.symm ▸ hq) (Nat.lt_of_lt_of_le (beforeLastDot_length hd) hn)
      rw [reads_released_inserted h hv hp hi hd, hl]
  obtain ⟨r, s₃, heq₃, hcbs⟩ := hpar
  rw [heq₃]
  cases r with
  | ok =>
    dsimp only
    exact raise_event_returns hq hcbs (by decide)
  | _ => exact ⟨_, s₃, rfl, hcbs⟩

/-- A released node among the ancestors is read. -/
theorem insert_released (hrec : ∀ s p, RInv s → reads_released s p = true → NR_reg_set_registry beh n s p = none)
    (h : RInv s) (hl : reads_released s name = true) (hv : nr_reg_is_valid name = .ok) (hp : s.ptr name = none)
    {node : Node} (hok : node.Ok) :
    nr_reg_insert_node beh (NR_reg_set_registry beh n) (allocated s node) name s.brk = none := by
  obtain ⟨s₂, hinv, hi, -, heq⟩ := insert_node_eq (NR_reg_set_registry beh n) h hv hp hok
  have hpar : nr_reg_set_parent_registries (NR_reg_set_registry beh n) s₂ name = none := by
    unfold nr_reg_set_parent_registries
    cases hd : beforeLastDot name with
    | none =>
      rw [reads_released_none (by simp [stops, hv, hp]) hd] at hl
      cases hl
    | some p => exact hrec _ p hinv (by rw [reads_released_inserted h hv hp hi hd, hl])
  rw [heq, hpar]

theorem live_node (hl : reads_released s name = false) {p : Ptr} (hp : s.ptr name = some p) :
    ∃ node, s.nodes p = some node := by
  rw [reads_released_stop (by simp [stops, hp]), released, hp, Option.any_some] at hl
  exact Option.isSome_iff_exists.1 (by simpa using hl)

/-- A node that is changed where it is. -/
theorem change_returns (hq : Quiet beh s.cbs) (hv : nr_reg_is_valid name = .ok) (p : Ptr) {nodes : Ptr → Option Node} :
    Returns s.cbs (nr_reg_change_node beh { s with nodes } name p p) := by
  unfold nr_reg_change_node
  rw [if_neg (by simp [hv]), if_neg (by simp)]
  apply raise_event_returns hq
  · rfl
  · decide

theorem set_returns
    (hrec : ∀ s p, RInv s → reads_released s p = false → Quiet beh s.cbs → p.length < n →
      Returns s.cbs (NR_reg_set_registry beh n s p))
    (h : RInv s) (hl : reads_released s name = false) (hq : Quiet beh s.cbs) (hn : name.length ≤ n) (data : Option Scalar) :
    Returns s.cbs (nr_reg_set beh (NR_reg_set_registry beh n) s name data) := by
  by_cases hv : nr_reg_is_valid name = .ok
  · cases hp : s.ptr name with
    | none =>
      have hok : (scalarNode (data.map stored)).Ok := by cases data <;> trivial
      obtain ⟨r, s', heq, hcbs⟩ := insert_returns hrec h hl hq hv hp hn hok
      have hnode := (create_spec (fun s p hs hlt hv hp => set_registry_absent beh n hs hlt hv hp) h hv hp hn hok).2 r s' heq
      have hfree : free_nodes s'.nodes [(nr_reg_rfree, s.brk)] = some (Function.update s'.nodes s.brk none) := by
        simp [free_nodes, hnode]
      unfold allocated at heq
      rw [set_makes h hv hp, heq]
      cases r with
      | ok => exact ⟨_, s', rfl, hcbs⟩
      | _ =>
        dsimp only
        rw [hfree]
        exact ⟨_, _, rfl, hcbs⟩
    | some p =>
      obtain ⟨node, hnode⟩ := live_node hl hp
      unfold nr_reg_set
      rw [h.fetch_node hv, hp]
      simp only [hnode, Option.map_some]
      by_cases ht : node.type ≠ (scalarNode data).type
      · rw [if_pos ht]
        exact ⟨_, s, rfl, rfl⟩
      · rw [if_neg ht]
        dsimp only
        split
        · split
          · exact change_returns hq hv p
          · exact ⟨_, s, rfl, rfl⟩
        · exact ⟨_, s, rfl, rfl⟩
  · exact ⟨_, s, set_invalid hv data, rfl⟩

theorem set_registry_returns (h : RInv s) (hl : reads_released s name = false) (hq : Quiet beh s.cbs)
    (hn : name.length < n) : Returns s.cbs (NR_reg_set_registry beh n s name) := by
  induction n generalizing s name with
  | zero => omega
  | succ n ih => exact set_returns (fun s p hs hl hq hlt => ih hs hl hq hlt) h hl hq (Nat.le_of_lt_succ hn) none

/-- A setter that reads a released node meets it under its own name or on the
way up. -/
theorem reads_released_cases (h : RInv s) (hl : reads_released s name = true) :
    nr_reg_is_valid name = .ok ∧ (s.ptr name = none ∨ ∃ p, s.ptr name = some p ∧ s.nodes p = none) := by
  cases hp : s.ptr name with
  | some p =>
    rw [reads_released_stop (by simp [stops, hp]), released, hp, Option.any_some, Option.isNone_iff_eq_none] at hl
    exact ⟨(h.ptr_some hp).2.2, .inr ⟨p, rfl, hl⟩⟩
  | none =>
    refine ⟨?_, .inl rfl⟩
    by_contra hv
    rw [reads_released_stop (by simp [stops, hv]), released, hp] at hl
    cases hl

theorem set_released (hrec : ∀ s p, RInv s → reads_released s p = true → NR_reg_set_registry beh n s p = none)
    (h : RInv s) (hl : reads_released s name = true) (data : Option Scalar) :
    nr_reg_set beh (NR_reg_set_registry beh n) s name data = none := by
  obtain ⟨hv, hp | ⟨p, hp, hnone⟩⟩ := reads_released_cases h hl
  · have hok : (scalarNode (data.map stored)).Ok := by cases data <;> trivial
    have heq := insert_released hrec h hl hv hp hok
    unfold allocated at heq
    rw [set_makes h hv hp, heq]
  · unfold nr_reg_set
    rw [h.fetch_node hv, hp]
    simp only [hnone, Option.map_none]

theorem set_registry_released (h : RInv s) (hl : reads_released s name = true) : NR_reg_set_registry beh n s name = none := by
  induction n generalizing s name with
  | zero => rfl
  | succ n ih => exact set_released (fun s p hs hl => ih hs hl) h hl none

end

/-! ## The setters -/

theorem set_array_returns (h : RInv s) (hl : reads_released s name = false) (hq : Quiet beh s.cbs) (string : Bool)
    (data : Bytes) : Returns s.cbs (nr_reg_set_array beh (NR_reg_set_registry beh name.length) s name string data) := by
  by_cases hv : nr_reg_is_valid name = .ok
  · cases hp : s.ptr name with
    | none =>
      unfold nr_reg_set_array
      rw [h.fetch_node hv, hp]
      exact insert_returns (fun s p hs hl hq hlt => set_registry_returns hs hl hq hlt) h hl hq hv hp (Nat.le_refl _)
        (array_ok string data)
    | some p =>
      obtain ⟨node, hnode⟩ := live_node hl hp
      unfold nr_reg_set_array
      rw [h.fetch_node hv, hp]
      simp only [hnode, Option.map_some]
      by_cases ht : node.type ≠ arrayType string
      · rw [if_pos ht]
        exact ⟨_, s, rfl, rfl⟩
      · rw [if_neg ht]
        rw [not_not] at ht
        cases node with
        | scalar v => cases string <;> cases v <;> cases ht
        | registry => cases string <;> cases ht
        | array st length block =>
          dsimp only
          split
          · split
            · obtain ⟨t, nodes, hi, hfree, -, -⟩ := replace_node h hp (by simp [hnode]) (array_ok string data)
              unfold nr_reg_change_node
              rw [if_neg (by simp [hv]), if_pos (Nat.ne_of_lt (h.ptr_some hp).2.1)]
              simp only [hi, hfree]
              apply raise_event_returns hq
              · rfl
              · decide
            · exact change_returns hq hv p
          · exact ⟨_, s, rfl, rfl⟩
  · exact ⟨_, s, set_array_invalid hv string data, rfl⟩

theorem set_array_released (h : RInv s) (hl : reads_released s name = true) (string : Bool) (data : Bytes) :
    nr_reg_set_array beh (NR_reg_set_registry beh name.length) s name string data = none := by
  obtain ⟨hv, hp | ⟨p, hp, hnone⟩⟩ := reads_released_cases h hl
  · unfold nr_reg_set_array
    rw [h.fetch_node hv, hp]
    exact insert_released (fun s p hs hl => set_registry_released hs hl) h hl hv hp (array_ok string data)
  · unfold nr_reg_set_array
    rw [h.fetch_node hv, hp]
    simp only [hnone, Option.map_none]

/-- Every setter returns that reads no released node. -/
theorem setter_returns (h : RInv s) (hl : reads_released s name = false) (hq : Quiet beh s.cbs) (arg : Arg) :
    Returns s.cbs (set beh s name arg) := by
  cases arg with
  | scalar d =>
    rw [set_scalar]
    exact set_returns (fun s p hs hl hq hlt => set_registry_returns hs hl hq hlt) h hl hq (Nat.le_refl _) _
  | registry => exact set_registry_returns h hl hq (Nat.lt_succ_self _)
  | bytes b => exact set_array_returns h hl hq false b
  | string b => exact set_array_returns h hl hq true (b ++ [0])

theorem setter_released (h : RInv s) (hl : reads_released s name = true) (arg : Arg) : set beh s name arg = none := by
  cases arg with
  | scalar d =>
    rw [set_scalar]
    exact set_released (fun s p hs hl => set_registry_released hs hl) h hl _
  | registry => exact set_registry_released h hl
  | bytes b => exact set_array_released h hl false b
  | string b => exact set_array_released h hl true (b ++ [0])

/-- Where no callback gets in the way, a setter returns unless it reads a
released node. -/
theorem setter_returns_iff (h : RInv s) (hq : Quiet beh s.cbs) (arg : Arg) :
    (∃ r s', set beh s name arg = some (r, s')) ↔ reads_released s name = false := by
  constructor
  · rintro ⟨r, s', hst⟩
    rw [Bool.eq_false_iff]
    intro hl
    rw [setter_released h hl arg] at hst
    cases hst
  · intro hl
    obtain ⟨r, s', hst, -⟩ := setter_returns h hl hq arg
    exact ⟨r, s', hst⟩

/-! ## Deletion -/

theorem delete_one_returns {cs : Nat → List Ptr} (hr : Rep s.nr_registry cs) {p : Ptr} {e : r_assoc_el Ptr}
    (he : s.nr_registry.heap p = some e) (hdestroy : e.destroyCall = [(nr_reg_rfree, e.data)])
    (hlive : (s.nodes e.data).isSome) {iter : r_assoc_iterator} (hprev : iter.prev = some p)
    (hmem : p ∈ cs iter.prev_chain.toNat) (key : Bytes) :
    ∃ s', nr_reg_local_iter_delete () s iter key e.data = some (.ok, (), s') ∧ s'.cbs = s.cbs := by
  obtain ⟨t', e', he', hrel, -⟩ := hr.release_entry hmem
  rw [he] at he'
  cases he'
  unfold nr_reg_local_iter_delete r_assoc_iter_delete
  rw [hprev]
  simp only [hrel, hdestroy, free_nodes, hlive, if_true]
  exact ⟨_, rfl, rfl⟩

/-- No node that a deletion releases was released before. -/
def LiveBelow (s : Reg) (name : Bytes) : Prop := ∀ n q, covers name n = true → s.ptr n = some q → (s.nodes q).isSome

/-- The loop reaches the end of the table. -/
theorem delete_loop_returns (pfx : Bytes) (rest : List Ptr) {n : Nat} {cs : Nat → List Ptr} {pre : List Ptr}
    {iter : r_assoc_iterator} (h : RInv s) (hl : LiveBelow s pfx) (hr : Rep s.nr_registry cs)
    (ho : order s.nr_registry cs = pre ++ rest) (hat : At cs iter rest) (hn : rest.length ≤ n) :
    ∃ s', iter_loop nr_reg_local_iter_delete pfx n () s iter = some (.ok, (), s') ∧ s'.cbs = s.cbs := by
  induction rest generalizing n s cs pre iter with
  | nil =>
    unfold iter_loop
    rw [hat.1]
    exact ⟨s, rfl, rfl⟩
  | cons p rest ih =>
    obtain ⟨e, iter', name, hel⟩ := h.walk_at hr ho hat
    obtain ⟨n, rfl⟩ : ∃ m, n = m + 1 := ⟨n - 1, by simp at hn; omega⟩
    rw [hel.iter_loop]
    by_cases hc : covers pfx name = true
    · rw [if_pos hc]
      obtain ⟨s₁, hdel, hcbs⟩ := delete_one_returns hr hel.elem (h.destroyCall hr hel.elem) (hl name e.data hc hel.ptr)
        hel.prev hel.mem name
      obtain ⟨-, hinv, hr', hsame, -, -, hptr₁, hnodes⟩ := delete_one h hr hel.elem hel.key hel.prev hel.mem hdel
      obtain ⟨-, ho', hat₁⟩ := hr.erase_passed hsame ho hel.next
      have hl₁ : LiveBelow s₁ pfx := by
        intro m q hcm hm
        rw [hnodes m q hm]
        rw [hptr₁] at hm
        split at hm
        · cases hm
        · exact hl m q hcm hm
      obtain ⟨s', heq, hcbs'⟩ := ih hinv hl₁ hr' ho' hat₁ (by simpa using hn)
      rw [hdel]
      exact ⟨s', heq, hcbs'.trans hcbs⟩
    · rw [if_neg hc]
      have ho₂ : order s.nr_registry cs = (pre ++ [p]) ++ rest := by simpa using ho
      exact ih h hl hr ho₂ hel.next (by simpa using hn)

/-- Every deletion returns. -/
theorem del_returns (h : RInv s) (hl : Live s) (hq : Quiet beh s.cbs) : Returns s.cbs (nr_reg_local_del beh s name) := by
  by_cases hv : nr_reg_is_valid name = .ok
  · obtain ⟨cs, hr⟩ := h.rep
    obtain ⟨s₁, hloop, hcbs⟩ : ∃ s₁, nr_reg_local_iter nr_reg_local_iter_delete name () s = some (.ok, (), s₁) ∧
        s₁.cbs = s.cbs :=
      delete_loop_returns name _ h (fun n q _ => hl n q) hr (List.nil_append _).symm hr.init_iter hr.order_length_le
    obtain ⟨-, hinv, -, hptr, -⟩ := iter_delete_spec h hloop
    obtain ⟨r, s₂, hev, hcbs₂⟩ : Returns s.cbs (raise_event beh s₁ name NR_REG_CB_ACTION_DELETE) := by
      apply raise_event_returns hq hcbs
      decide
    obtain ⟨rfl, hsame, -⟩ := raise_event_spec (by decide) hev
    unfold nr_reg_local_del
    rw [if_neg (by simp [hv]), hloop]
    dsimp only
    rw [hev]
    dsimp only
    split
    · rename_i hroot
      subst hroot
      -- everything was deleted, so there is no node left to find released
      have hl₂ : Live s₂ := by
        intro n q hn
        rw [hsame.ptr, hptr] at hn
        cases hn
      rw [← hcbs₂] at hq ⊢
      exact set_registry_returns (hsame.inv hinv) (hl₂.not_read _) hq (Nat.lt_succ_self _)
    · exact ⟨_, s₂, rfl, hcbs₂⟩
  · exact ⟨_, s, del_bad_name hv, rfl⟩

/-! ## Runs -/

theorem Tree.live_nodes (h : Tree s.map) : Live s := by
  intro n q hn
  rw [Option.isSome_iff_ne_none]
  intro hnone
  exact h.live n (by rw [Reg.map, hn, Option.map_some, hnone]; rfl)

theorem init_returns : ∃ s₀, nr_reg_local_init (fun _ => 0) = some (.ok, s₀) ∧ s₀.cbs = nr_reg_cb_init := by
  have hl : Live emptyReg := by
    intro n q hn
    rw [emptyReg_ptr] at hn
    cases hn
  obtain ⟨r, s₀, heq, hcbs⟩ : Returns emptyReg.cbs (nr_reg_local_init fun _ => 0) :=
    set_registry_returns emptyReg_inv (hl.not_read _) (quiet_of_zero init_cinv) (Nat.lt_succ_self _)
  have hout := set_registry_absent (fun _ => 0) ([] : Bytes).length.succ emptyReg_inv (Nat.lt_succ_self _) rfl
    (emptyReg_ptr [])
  have hr : r = .ok := by
    by_contra hne
    have := hout.fail r s₀ heq hne
    rw [parentsFail_none rfl] at this
    cases this
  subst hr
  exact ⟨s₀, heq, hcbs⟩

/-- A call returns, and keeps the invariant of the callback table. -/
theorem step_returns (h : RInv s) (hl : Live s) (hc : CInv s.cbs) (op : RegOp) :
    ∃ r s', regStep (fun _ => 0) s op = some (r, s') ∧ CInv s'.cbs := by
  have hq := quiet_of_zero hc
  cases op with
  | set name arg =>
    obtain ⟨r, s', heq, hcbs⟩ := setter_returns h (hl.not_read name) hq arg
    exact ⟨r, s', heq, hcbs ▸ hc⟩
  | del name =>
    obtain ⟨r, s', heq, hcbs⟩ := del_returns h hl hq
    exact ⟨r, s', heq, hcbs ▸ hc⟩
  | callbacks op =>
    obtain ⟨r, cbs, heq, hinv⟩ := cbStep_total hc op
    exact ⟨r, { s with cbs }, by rw [regStep, heq]; rfl, hinv⟩

/-- A run that strands no node keeps the invariant of the callback table. -/
theorem safe_run_cinv {evs : List (RegOp × Status)} (hrun : Reaches (fun _ => 0) Safe evs s) : CInv s.cbs := by
  obtain ⟨s₀, hi, hr⟩ := hrun
  obtain ⟨s₁, hi₁, hcbs⟩ := init_returns
  obtain rfl : s₀ = s₁ := by
    rw [hi] at hi₁
    cases hi₁
    rfl
  obtain ⟨hinv, -⟩ := init_spec hi
  have ht := (show Reaches (fun _ => 0) Safe [] s₀ from ⟨s₀, hi, .nil⟩).tree
  refine (hr.inv (fun s => RInv s ∧ Tree s.map ∧ CInv s.cbs) ⟨hinv, ht, hcbs ▸ init_cinv⟩ ?_).2.2
  rintro s op r s' ⟨hinv, ht, hc⟩ hok hst
  obtain ⟨r₁, s₁, heq, hc₁⟩ := step_returns hinv ht.live_nodes hc op
  rw [heq] at hst
  cases hst
  exact ⟨step_rinv hinv heq, step_tree hinv ht hok heq, hc₁⟩

/-- In a run that strands no node, every call returns. -/
theorem safe_run_returns {evs : List (RegOp × Status)} (hrun : Reaches (fun _ => 0) Safe evs s) (op : RegOp) :
    ∃ r s', regStep (fun _ => 0) s op = some (r, s') := by
  obtain ⟨r, s', heq, -⟩ := step_returns hrun.rinv hrun.tree.live_nodes (safe_run_cinv hrun) op
  exact ⟨r, s', heq⟩

end Nrappkit.Registry
