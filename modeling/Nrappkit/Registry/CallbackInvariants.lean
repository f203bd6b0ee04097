import Nrappkit.Registry.Callbacks
import Nrappkit.Registry.NameTable
/-!
# Invariants of the callback table

`CInv` holds after every sequence of registrations: each stored inner table is
allocated, belongs to one name, is not empty, and files each info block under
its own id. The lemmas say what registering or unregistering one action does
to the inner table of its name; every other name keeps its table.
-/
open Lib Nrappkit.Assoc

namespace Nrappkit.Registry

/-! ## Callback ids -/

/-- A number is determined by its bytes. -/
theorem eq_of_bytes (n : Nat) {x y : Nat} (hx : x < 256 ^ n) (hy : y < 256 ^ n)
    (h : ∀ i < n, x / 256 ^ i % 256 = y / 256 ^ i % 256) : x = y := by
  induction n generalizing x y with
  | zero => omega
  | succ n ih =>
    have hdiv : x / 256 = y / 256 := by
      refine ih (Nat.div_lt_of_lt_mul ?_) (Nat.div_lt_of_lt_mul ?_) fun i hi => ?_
      · rwa [Nat.pow_succ, Nat.mul_comm] at hx
      · rwa [Nat.pow_succ, Nat.mul_comm] at hy
      · have := h (i + 1) (by omega)
        rwa [Nat.pow_succ, Nat.mul_comm, ← Nat.div_div_eq_div_mul, ← Nat.div_div_eq_div_mul] at this
    have hmod : x % 256 = y % 256 := by simpa using h 0 (by omega)
    omega

theorem compute_cb_id_inj {cb cb' : UInt64} {a a' : UInt8} :
    compute_cb_id cb a = compute_cb_id cb' a' ↔ cb = cb' ∧ a = a' := by
  constructor
  · intro h
    obtain ⟨hb, ha⟩ := List.append_inj h (by simp)
    refine ⟨UInt64.toNat_inj.1 (eq_of_bytes 8 cb.toNat_lt cb'.toNat_lt fun i hi => ?_), by simpa using ha⟩
    have hi' := List.map_inj_left.1 hb i (by simpa using hi)
    simpa [← UInt8.toNat_inj] using hi'
  · rintro ⟨rfl, rfl⟩
    rfl

/-! ## The invariant -/

/-- The inner table of `name`: represented by `cs`, counted, not empty, each
info block under its id. -/
structure InnerOk (name : Bytes) (t : r_assoc nr_reg_cb_info) (cs : Nat → List Ptr) : Prop where
  rep : Rep t cs
  count : t.num_elements = UInt32.ofNat (order t cs).length
  nonempty : order t cs ≠ []
  info : ∀ k x, t.entry k = some x → x.2 = (none, some nr_reg_info_free) ∧ x.1.name = name ∧
    k = compute_cb_id x.1.cb x.1.action ∧ x.1.action ∈ CB_ACTIONS ∧ x.1.cb ≠ 0

structure CInv (s : Cbs) : Prop where
  outer : ∃ cs, Rep s.nr_registry_callbacks cs ∧
    s.nr_registry_callbacks.num_elements = UInt32.ofNat (order s.nr_registry_callbacks cs).length
  names : NameTable s.nr_registry_callbacks s.brk nr_reg_assoc_destroy
  inner : ∀ name a, s.nr_registry_callbacks.get (nameKey name) = some a →
    ∃ t cs, s.assocs a = some t ∧ InnerOk name t cs

/-- The inner table of a name. -/
def Cbs.table (s : Cbs) (name : Bytes) : Option (r_assoc nr_reg_cb_info) :=
  (s.nr_registry_callbacks.get (nameKey name)).bind s.assocs

/-- The argument registered for a callback and an action on a name. -/
def Cbs.regs (s : Cbs) (name : Bytes) (action : UInt8) (cb : UInt64) : Option UInt64 :=
  ((s.table name).bind fun t => t.get (compute_cb_id cb action)).map (·.cb_arg)

theorem init_cinv : CInv nr_reg_cb_init := by
  refine ⟨⟨_, created_rep, ?_⟩, NameTable.created _ _, fun name a ha => ?_⟩
  · have : order (r_assoc_create r_assoc_crc32_hash_compute 12 : r_assoc Ptr) (fun _ => []) = [] := by
      simp [order, orderFrom]
    rw [show nr_reg_cb_init.nr_registry_callbacks = r_assoc_create r_assoc_crc32_hash_compute 12 from rfl, this]
    rfl
  · have hnone : nr_reg_cb_init.nr_registry_callbacks.entry (nameKey name) = none := created_entry _
    rw [r_assoc.get, hnone] at ha
    cases ha

namespace CInv
variable {s : Cbs}

/-- A name has an outer entry exactly when it has an inner table. -/
theorem table_some (h : CInv s) {name : Bytes} {t : r_assoc nr_reg_cb_info} (ht : s.table name = some t) :
    ∃ a cs, s.nr_registry_callbacks.entry (nameKey name) = some (a, none, some nr_reg_assoc_destroy) ∧
      s.assocs a = some t ∧ a < s.brk ∧ nr_reg_is_valid name = .ok ∧ InnerOk name t cs := by
  obtain ⟨a, ha, ht⟩ := Option.bind_eq_some_iff.1 ht
  obtain ⟨hx, hlt, hv⟩ := h.names.get_some ha
  obtain ⟨t', cs, ht', hin⟩ := h.inner name a ha
  rw [ht] at ht'
  cases ht'
  exact ⟨a, cs, hx, ht, hlt, hv, hin⟩

theorem entry_none (h : CInv s) {name : Bytes} (ht : s.table name = none) :
    s.nr_registry_callbacks.entry (nameKey name) = none := by
  cases hx : s.nr_registry_callbacks.entry (nameKey name) with
  | none => rfl
  | some x =>
    have ha : s.nr_registry_callbacks.get (nameKey name) = some x.1 := by rw [r_assoc.get, hx]; rfl
    obtain ⟨t, cs, ht', -⟩ := h.inner name x.1 ha
    simp [Cbs.table, ha, ht'] at ht

theorem fetch_some (h : CInv s) {name : Bytes} {a : Ptr} {f : Option FnPtr × Option FnPtr}
    (hx : s.nr_registry_callbacks.entry (nameKey name) = some (a, f)) :
    r_assoc_fetch s.nr_registry_callbacks (nameKey name) = some (.ok a) := by
  obtain ⟨cs, hr, -⟩ := h.outer
  simp [hr.fetch_eq, r_assoc.get, hx]

theorem fetch_none (h : CInv s) {name : Bytes} (ht : s.table name = none) :
    r_assoc_fetch s.nr_registry_callbacks (nameKey name) = some (.error .R_NOT_FOUND) := by
  obtain ⟨cs, hr, -⟩ := h.outer
  simp [hr.fetch_eq, r_assoc.get, h.entry_none ht]

/-- What is stored at the address of `name` is not seen under other names. -/
theorem other_get (h : CInv s) {name n : Bytes} {a b : Ptr} {f : Option FnPtr × Option FnPtr}
    (hx : s.nr_registry_callbacks.entry (nameKey name) = some (a, f))
    (hb : s.nr_registry_callbacks.get (nameKey n) = some b) (hn : n ≠ name) : b ≠ a := by
  rintro rfl
  exact hn (h.names.get_inj hb (show s.nr_registry_callbacks.get (nameKey name) = some b by rw [r_assoc.get, hx]; rfl))

/-- Replacing the inner table at the address of `name` changes that name only. -/
theorem table_update (h : CInv s) {name : Bytes} {a : Ptr} {f : Option FnPtr × Option FnPtr}
    (hx : s.nr_registry_callbacks.entry (nameKey name) = some (a, f)) (t' : r_assoc nr_reg_cb_info) :
    Cbs.table { s with assocs := Function.update s.assocs a (some t') } = Function.update s.table name (some t') := by
  funext n
  by_cases hn : n = name
  · subst hn
    simp [Cbs.table, r_assoc.get, hx]
  · rw [Function.update_of_ne hn, Cbs.table, Cbs.table]
    cases hy : s.nr_registry_callbacks.get (nameKey n) with
    | none => rfl
    | some b => exact Function.update_of_ne (h.other_get hx hy hn) ..

/-- Replacing the inner table at the address of `name` by another good one. -/
theorem set_inner (h : CInv s) {name : Bytes} {a : Ptr} {f : Option FnPtr × Option FnPtr}
    (hx : s.nr_registry_callbacks.entry (nameKey name) = some (a, f)) {t' : r_assoc nr_reg_cb_info}
    {cs' : Nat → List Ptr} (hin : InnerOk name t' cs') :
    CInv { s with assocs := Function.update s.assocs a (some t') } where
  outer := h.outer
  names := h.names
  inner n b hb := by
    by_cases hn : n = name
    · subst hn
      have hba : b = a := by
        have hb : s.nr_registry_callbacks.get (nameKey n) = some b := hb
        rw [r_assoc.get, hx] at hb
        exact (Option.some.inj hb).symm
      exact ⟨t', cs', by simp [hba], hin⟩
    · obtain ⟨t, cs, ht, hin'⟩ := h.inner n b hb
      exact ⟨t, cs, (Function.update_of_ne (h.other_get hx hb hn) ..).trans ht, hin'⟩

end CInv

/-! ## Registering one action -/

/-- Storing an info block under its id. -/
theorem store_info_spec {name : Bytes} {t : r_assoc nr_reg_cb_info} {cs : Nat → List Ptr} (hr : Rep t cs)
    (hcount : t.num_elements = UInt32.ofNat (order t cs).length)
    (hinfo : ∀ k x, t.entry k = some x → x.2 = (none, some nr_reg_info_free) ∧ x.1.name = name ∧
      k = compute_cb_id x.1.cb x.1.action ∧ x.1.action ∈ CB_ACTIONS ∧ x.1.cb ≠ 0)
    (info : nr_reg_cb_info) (hn : info.name = name) (ha : info.action ∈ CB_ACTIONS) (hcb : info.cb ≠ 0) :
    ∃ t' cs', store_info t info = some (.ok, t') ∧ InnerOk name t' cs' ∧
      t'.get = Function.update t.get (compute_cb_id info.cb info.action) (some info) := by
  -- The new entry is as good as the old ones.
  have hgood : ∀ t' : r_assoc nr_reg_cb_info, t'.entry = Function.update t.entry (compute_cb_id info.cb info.action)
      (some (info, none, some nr_reg_info_free)) → ∀ k x, t'.entry k = some x →
      x.2 = (none, some nr_reg_info_free) ∧ x.1.name = name ∧ k = compute_cb_id x.1.cb x.1.action ∧
        x.1.action ∈ CB_ACTIONS ∧ x.1.cb ≠ 0 := by
    intro t' he k x hx
    rw [he] at hx
    by_cases hk : k = compute_cb_id info.cb info.action
    · rw [hk, Function.update_self, Option.some.injEq] at hx
      subst hx
      exact ⟨rfl, hn, hk, ha, hcb⟩
    · rw [Function.update_of_ne hk] at hx
      exact hinfo k x hx
  have hget : ∀ t' : r_assoc nr_reg_cb_info, t'.entry = Function.update t.entry (compute_cb_id info.cb info.action)
      (some (info, none, some nr_reg_info_free)) →
      t'.get = Function.update t.get (compute_cb_id info.cb info.action) (some info) := fun t' he => get_update he
  rcases hr.bucket_cases (compute_cb_id info.cb info.action) with ⟨p, e, he, hk, hb⟩ | ⟨hk, hb⟩
  · have hr' := hr.modify he info e.copy e.destroy t.num_elements
    have hent : t.entry (compute_cb_id info.cb info.action) = some (e.data, e.copy, e.destroy) :=
      hr.entry_eq_some.2 ⟨p, e, he, by rw [← hk]; rfl⟩
    have hfn := (hinfo _ _ hent).1
    have hent' : Assoc.r_assoc.entry { t with heap := Function.update t.heap p (some { e with data := info }) } =
        Function.update t.entry (compute_cb_id info.cb info.action) (some (info, none, some nr_reg_info_free)) := by
      rw [← hfn]
      exact hr.modify_entry he info e.copy e.destroy t.num_elements hk
    refine ⟨_, cs, by simp [store_info, hb, he], ⟨hr', hcount, ?_, hgood _ hent'⟩, hget _ hent'⟩
    intro hnil
    have hmem := hr.mem_order.2 ⟨e, he⟩
    rw [show order t cs = [] from hnil] at hmem
    cases hmem
  · have hent : t.entry (compute_cb_id info.cb info.action) = none := hr.entry_eq_none.2 hk
    obtain ⟨t', cs', hi, hr', he', hlen, hnum, -, -⟩ :=
      hr.insert_absent hent info none (some nr_reg_info_free) .R_ASSOC_NEW
    refine ⟨t', cs', by simp [store_info, hb, hi], ⟨hr', ?_, ?_, hgood _ he'⟩, hget _ he'⟩
    · rw [hnum, hcount, hlen]
      simp
    · intro hnil
      rw [hnil] at hlen
      simp at hlen

/-- A registration map with the registrations of `cb` on `name` for the
actions of `l` changed. -/
def setReg (m : Bytes → UInt8 → UInt64 → Option UInt64) (name : Bytes) (l : List UInt8) (cb : UInt64)
    (v : Option UInt64) : Bytes → UInt8 → UInt64 → Option UInt64 :=
  fun n a c => if n = name ∧ a ∈ l ∧ c = cb then v else m n a c

/-- Changing one id of one inner table changes one registration. -/
theorem regs_update {s s' : Cbs} {name : Bytes} {action : UInt8} {cb : UInt64} {o : Option (r_assoc nr_reg_cb_info)}
    {v : Option nr_reg_cb_info} (ht : s'.table = Function.update s.table name o)
    (hg : ∀ k, (o.bind fun t => t.get k) =
      if k = compute_cb_id cb action then v else (s.table name).bind fun t => t.get k) :
    s'.regs = setReg s.regs name [action] cb (v.map (·.cb_arg)) := by
  funext n a c
  simp only [Cbs.regs, setReg, ht]
  by_cases hn : n = name
  · subst hn
    rw [Function.update_self, hg]
    by_cases hid : compute_cb_id c a = compute_cb_id cb action
    · obtain ⟨rfl, rfl⟩ := compute_cb_id_inj.1 hid
      simp
    · have : ¬ (a ∈ [action] ∧ c = cb) := by
        rw [List.mem_singleton]
        rintro ⟨rfl, rfl⟩
        exact hid rfl
      rw [if_neg hid, if_neg fun h => this h.2]
  · rw [Function.update_of_ne hn, if_neg fun h => hn h.1]

/-- Storing under a name that has an inner table. -/
theorem register_present {s : Cbs} (h : CInv s) {name : Bytes} {action : UInt8} {cb : UInt64} (cb_arg : UInt64)
    (hcb : cb ≠ 0) (hv : nr_reg_is_valid name = .ok) (ha : action ∈ CB_ACTIONS) {t : r_assoc nr_reg_cb_info}
    (ht : s.table name = some t) :
    ∃ s', nr_reg_register_callback s name action cb cb_arg = some (.ok, s') ∧ CInv s' ∧
      s'.regs = setReg s.regs name [action] cb (some cb_arg) ∧ (∀ n ≠ name, s'.table n = s.table n) := by
  obtain ⟨a, cs, hx, hst, -, -, hin⟩ := h.table_some ht
  obtain ⟨t', cs', hstore, hin', hget⟩ := store_info_spec hin.rep hin.count hin.info
    { action, cb, cb_arg, name } rfl ha hcb
  have htab := h.table_update hx t'
  refine ⟨_, ?_, h.set_inner hx hin', ?_, fun n hn => by rw [htab, Function.update_of_ne hn]⟩
  · simp [nr_reg_register_callback, hcb, hv, nr_reg_validate_action, ha, fetch_or_create, h.fetch_some hx, hst, hstore]
  · refine regs_update (v := some { action, cb, cb_arg, name }) htab fun k => ?_
    simp only [Option.bind_some, hget, ht, Function.update_apply]

/-- Storing under a name that has none creates the inner table. -/
theorem register_absent {s : Cbs} (h : CInv s) {name : Bytes} {action : UInt8} {cb : UInt64} (cb_arg : UInt64)
    (hcb : cb ≠ 0) (hv : nr_reg_is_valid name = .ok) (ha : action ∈ CB_ACTIONS) (ht : s.table name = none) :
    ∃ s', nr_reg_register_callback s name action cb cb_arg = some (.ok, s') ∧ CInv s' ∧
      s'.regs = setReg s.regs name [action] cb (some cb_arg) ∧ (∀ n ≠ name, s'.table n = s.table n) ∧
      s'.nr_registry_callbacks.num_elements = s.nr_registry_callbacks.num_elements + 1 := by
  have hnew := create_rep (δ := nr_reg_cb_info) r_assoc_crc32_hash_compute 5 fun k => crc32_lt k 5 (by decide)
  have hempty : ∀ k, (r_assoc_create r_assoc_crc32_hash_compute 5 : r_assoc nr_reg_cb_info).entry k = none := fun k =>
    hnew.entry_eq_none.2 fun a e he => by cases he
  obtain ⟨t', cs', hstore, hin', hstored⟩ := store_info_spec hnew
    (by simp [order, orderFrom, r_assoc_create]) (fun k x hx => by rw [hempty] at hx; cases hx)
    { action, cb, cb_arg, name } rfl ha hcb
  obtain ⟨cs, hr, hcount⟩ := h.outer
  obtain ⟨outer', ocs', hi, hr', hent, hlen, hnum, -, -⟩ :=
    hr.insert_absent (h.entry_none ht) s.brk none (some nr_reg_assoc_destroy) .R_ASSOC_NEW
  have hget := NameTable.get_entry hent
  have hold : ∀ n b, s.nr_registry_callbacks.get (nameKey n) = some b → b ≠ s.brk := fun n b hb =>
    Nat.ne_of_lt (h.names.get_some hb).2.1
  have htab : Cbs.table { nr_registry_callbacks := outer', brk := s.brk + 1
                          assocs := Function.update s.assocs s.brk (some t') } =
      Function.update s.table name (some t') := by
    funext n
    by_cases hn : n = name
    · subst hn
      simp [Cbs.table, hget]
    · rw [Function.update_of_ne hn, Cbs.table, Cbs.table, hget, if_neg hn]
      cases hy : s.nr_registry_callbacks.get (nameKey n) with
      | none => rfl
      | some b => exact Function.update_of_ne (hold n b hy) ..
  refine ⟨{ nr_registry_callbacks := outer', brk := s.brk + 1, assocs := Function.update s.assocs s.brk (some t') },
    ?_, ⟨⟨ocs', hr', by rw [hnum, hcount, hlen]; simp⟩, h.names.insert hv hent, fun n b hb => ?_⟩, ?_, ?_, hnum⟩
  · simp [nr_reg_register_callback, hcb, hv, nr_reg_validate_action, ha, fetch_or_create, h.fetch_none ht, hi, hstore]
  · rw [hget] at hb
    by_cases hn : n = name
    · subst hn
      rw [if_pos rfl] at hb
      cases hb
      exact ⟨t', cs', by simp, hin'⟩
    · rw [if_neg hn] at hb
      obtain ⟨t, cs, hst, hin⟩ := h.inner n b hb
      exact ⟨t, cs, (Function.update_of_ne (hold n b hb) ..).trans hst, hin⟩
  · refine regs_update (v := some { action, cb, cb_arg, name }) htab fun k => ?_
    have hnone : (r_assoc_create r_assoc_crc32_hash_compute 5 : r_assoc nr_reg_cb_info).get k = none := by
      rw [r_assoc.get, hempty, Option.map_none]
    simp only [Option.bind_some, hstored, ht, Function.update_apply, Option.bind_none, hnone]
  · intro n hn
    rw [htab, Function.update_of_ne hn]

theorem register_spec {s : Cbs} (h : CInv s) {name : Bytes} {action : UInt8} {cb : UInt64} (cb_arg : UInt64)
    (hcb : cb ≠ 0) (hv : nr_reg_is_valid name = .ok) (ha : action ∈ CB_ACTIONS) :
    ∃ s', nr_reg_register_callback s name action cb cb_arg = some (.ok, s') ∧ CInv s' ∧
      s'.regs = setReg s.regs name [action] cb (some cb_arg) := by
  cases ht : s.table name with
  | some t =>
    obtain ⟨s', hreg, hinv, hregs, -⟩ := register_present h cb_arg hcb hv ha ht
    exact ⟨s', hreg, hinv, hregs⟩
  | none =>
    obtain ⟨s', hreg, hinv, hregs, -⟩ := register_absent h cb_arg hcb hv ha ht
    exact ⟨s', hreg, hinv, hregs⟩

/-! ## Unregistering one action -/

/-- What the `size == 0` test of `nr_reg_unregister_callback` tests. -/
theorem num_elements_zero {δ : Type} {t : r_assoc δ} {cs : Nat → List Ptr}
    (hcount : t.num_elements = UInt32.ofNat (order t cs).length) :
    r_assoc_num_elements t = 0 ↔ (order t cs).length % 2 ^ 32 = 0 := by
  rw [r_assoc_num_elements, hcount]
  constructor
  · intro h
    have h32 : (UInt32.ofNat (order t cs).length).toInt32 = 0 := Int32.toInt_inj.1 h
    have h0 : UInt32.ofNat (order t cs).length = 0 := congrArg Int32.toUInt32 h32
    simpa using congrArg UInt32.toNat h0
  · intro h
    have h0 : UInt32.ofNat (order t cs).length = 0 := UInt32.toNat_inj.1 (by simpa using h)
    rw [h0]
    rfl

/-- The info is a registration of `cb` for an action of `l`. -/
def ofActions (cb : UInt64) (l : List UInt8) (x : nr_reg_cb_info) : Bool := x.cb = cb && x.action ∈ l

/-- The elements that hold no registration of `cb` for an action of `l`. -/
def keeps (t : r_assoc nr_reg_cb_info) (cb : UInt64) (l : List UInt8) (p : Ptr) : Bool :=
  (t.heap p).all fun e => !ofActions cb l e.data

/-- Deleting the id of a registration leaves the other elements. -/
theorem delete_inner {name : Bytes} {t : r_assoc nr_reg_cb_info} {cs : Nat → List Ptr} (hin : InnerOk name t cs)
    (cb : UInt64) (action : UInt8) :
    ∃ r t' calls, r_assoc_delete t (compute_cb_id cb action) = some (r, t', calls) ∧ (r = .ok ∨ r = .R_NOT_FOUND) ∧
      SameHash t t' ∧ Rep t' (fun j => (cs j).filter (keeps t cb [action])) ∧
      t'.num_elements = UInt32.ofNat (order t' fun j => (cs j).filter (keeps t cb [action])).length ∧
      t'.entry = Function.update t.entry (compute_cb_id cb action) none ∧
      (∀ p, keeps t cb [action] p = true → (t'.heap p).map DLink.body = (t.heap p).map DLink.body) ∧
      (t.entry (compute_cb_id cb action) = none → t' = t) := by
  have hid : ∀ p e, t.heap p = some e → e.key = compute_cb_id e.data.cb e.data.action := fun p e he =>
    (hin.info e.key _ (hin.rep.entry_eq_some.2 ⟨p, e, he, rfl⟩)).2.2.1
  have hkeep : ∀ p e, t.heap p = some e → (keeps t cb [action] p = true ↔ e.key ≠ compute_cb_id cb action) := by
    intro p e he
    rw [hid p e he, ne_eq, compute_cb_id_inj, not_and_or]
    simp [keeps, ofActions, he]
  cases hx : t.entry (compute_cb_id cb action) with
  | none =>
    have hall : keeps t cb [action] = fun _ => true := by
      funext p
      cases he : t.heap p with
      | none => simp [keeps, he]
      | some e => exact (hkeep p e he).2 (hin.rep.entry_eq_none.1 hx p e he)
    refine ⟨.R_NOT_FOUND, t, [], hin.rep.delete_absent hx, .inr rfl, ⟨rfl, rfl⟩, ?_, ?_, ?_, fun _ _ => rfl,
      fun _ => rfl⟩
    · simpa [hall] using hin.rep
    · simpa [hall] using hin.count
    · rw [← hx, Function.update_eq_self]
  | some x =>
    obtain ⟨t', p, e, he, hkey, hd, hr, hent, hbod, -, hnum, hsame, -⟩ := hin.rep.delete_present hx
    have hfil : ∀ j, (cs j).erase p = (cs j).filter (keeps t cb [action]) := by
      intro j
      rw [(hin.rep.nodup j).erase_eq_filter]
      refine List.filter_congr fun q hq => ?_
      obtain ⟨e', he'⟩ := hin.rep.live hq
      rw [Bool.eq_iff_iff, hkeep q e' he', ← hkey, bne_iff_ne]
      refine not_congr ⟨?_, fun hk => hin.rep.keys q p e' e he' he hk⟩
      rintro rfl
      rw [he] at he'
      cases he'
      rfl
    have hcount := hin.rep.count_erase hsame he hnum hin.count
    simp only [hfil] at hr hcount
    refine ⟨.ok, t', _, hd, .inl rfl, hsame, hr, hcount, hent, fun q hq => hbod q ?_, fun h0 => by cases h0⟩
    rintro rfl
    exact (hkeep q e he).1 hq hkey

/-- `name` has the inner table `t`, at `a`. -/
structure Holds (s : Cbs) (name : Bytes) (a : Ptr) (t : r_assoc nr_reg_cb_info) (cs : Nat → List Ptr) : Prop where
  entry : s.nr_registry_callbacks.entry (nameKey name) = some (a, none, some nr_reg_assoc_destroy)
  assoc : s.assocs a = some t
  inner : InnerOk name t cs

theorem Holds.table {s : Cbs} {name : Bytes} {a : Ptr} {t : r_assoc nr_reg_cb_info} {cs : Nat → List Ptr}
    (h : Holds s name a t cs) : s.table name = some t := by
  simp [Cbs.table, r_assoc.get, h.entry, h.assoc]

/-- The inner table at `a` is destroyed. -/
structure Dead (name : Bytes) (a : Ptr) (s' : Cbs) : Prop where
  table : s'.table name = none
  assoc : s'.assocs a = none

/-- The inner table `t` at `a` has become `t'`, which has the elements of `t`
to keep. -/
structure Alive (name : Bytes) (a : Ptr) (t : r_assoc nr_reg_cb_info) (cs : Nat → List Ptr) (keep : Ptr → Bool)
    (s' : Cbs) (t' : r_assoc nr_reg_cb_info) : Prop where
  holds : Holds s' name a t' fun j => (cs j).filter keep
  hash : SameHash t t'
  body : ∀ p, keep p = true → (t'.heap p).map DLink.body = (t.heap p).map DLink.body

/-- A name that loses its last registration loses its inner table. -/
theorem drop_table {s : Cbs} (h : CInv s) {name : Bytes} {a : Ptr} {t' : r_assoc nr_reg_cb_info} {cs' : Nat → List Ptr}
    (hx : s.nr_registry_callbacks.entry (nameKey name) = some (a, none, some nr_reg_assoc_destroy)) (hr : Rep t' cs') :
    ∃ outer', r_assoc_delete s.nr_registry_callbacks (nameKey name) =
        some (.ok, outer', [(nr_reg_assoc_destroy, a)]) ∧
      destroy_assocs (Function.update s.assocs a (some t')) [(nr_reg_assoc_destroy, a)] =
        some (Function.update s.assocs a none) ∧
      CInv { s with nr_registry_callbacks := outer', assocs := Function.update s.assocs a none } ∧
      Cbs.table { s with nr_registry_callbacks := outer', assocs := Function.update s.assocs a none } =
        Function.update s.table name none := by
  obtain ⟨cs, hro, hcount⟩ := h.outer
  obtain ⟨outer', p, e, he, hkey, hd, hro', hent, -, -, hnum, hsame, -⟩ := hro.delete_present hx
  have hget := NameTable.get_entry hent
  refine ⟨outer', hd, ?_, ⟨⟨_, hro', hro.count_erase hsame he hnum hcount⟩, h.names.erase hent, fun n b hb => ?_⟩, ?_⟩
  · simp [destroy_assocs, hr.destroy_eq]
  · rw [hget] at hb
    by_cases hn : n = name
    · rw [if_pos hn] at hb
      cases hb
    · rw [if_neg hn] at hb
      obtain ⟨t, cs, hst, hin⟩ := h.inner n b hb
      exact ⟨t, cs, (Function.update_of_ne (h.other_get hx hb hn) ..).trans hst, hin⟩
  · funext n
    by_cases hn : n = name
    · subst hn
      simp [Cbs.table, hget]
    · rw [Function.update_of_ne hn, Cbs.table, Cbs.table, hget, if_neg hn]
      cases hy : s.nr_registry_callbacks.get (nameKey n) with
      | none => rfl
      | some b => exact Function.update_of_ne (h.other_get hx hy hn) ..

/-- Unregistering one action: its element goes away, and the inner table with
it when the counter then reads zero. -/
theorem unregister_spec {s : Cbs} (h : CInv s) {name : Bytes} {cb : UInt64} (hcb : cb ≠ 0)
    (hv : nr_reg_is_valid name = .ok) {b : UInt8} (hb : b ∈ CB_ACTIONS)
    {a : Ptr} {t : r_assoc nr_reg_cb_info} {cs : Nat → List Ptr} (ht : Holds s name a t cs) :
    ∃ s', nr_reg_unregister_callback s name b cb = some (.ok, s') ∧ CInv s' ∧
      (∀ n ≠ name, s'.table n = s.table n) ∧
      if ((order t cs).filter (keeps t cb [b])).length % 2 ^ 32 = 0 then Dead name a s'
      else (∃ t', Alive name a t cs (keeps t cb [b]) s' t') ∧ (s.regs name b cb = none → s' = s) := by
  obtain ⟨r, t', calls, hd, hr, hsame, hrep, hcount, hent, hbod, habs⟩ := delete_inner ht.inner cb b
  have hr' : ¬ (r ≠ .ok ∧ r ≠ .R_NOT_FOUND) := by
    rintro ⟨h1, h2⟩
    exact hr.elim h1 h2
  have hz := num_elements_zero hcount
  rw [order_filter hsame.size] at hz
  by_cases h0 : ((order t cs).filter (keeps t cb [b])).length % 2 ^ 32 = 0
  · obtain ⟨outer', hod, hdes, hinv, htab⟩ := drop_table h ht.entry hrep
    refine ⟨_, ?_, hinv, fun n hn => by rw [htab, Function.update_of_ne hn], ?_⟩
    · simp [nr_reg_unregister_callback, hcb, hv, nr_reg_validate_action, hb, h.fetch_some ht.entry, ht.assoc, hd, hr',
        hz.2 h0, hod, hdes]
    · rw [if_pos h0]
      exact ⟨by rw [htab, Function.update_self], by simp⟩
  · have hnz : r_assoc_num_elements t' ≠ 0 := fun hn => h0 (hz.1 hn)
    have hin' : InnerOk name t' fun j => (cs j).filter (keeps t cb [b]) := by
      refine ⟨hrep, hcount, ?_, fun k y hy => ?_⟩
      · rw [order_filter hsame.size]
        intro hnil
        rw [hnil] at h0
        exact h0 rfl
      · rw [hent] at hy
        by_cases hk : k = compute_cb_id cb b
        · simp [hk] at hy
        · rw [Function.update_of_ne hk] at hy
          exact ht.inner.info k y hy
    have htab := h.table_update ht.entry t'
    refine ⟨_, ?_, h.set_inner ht.entry hin', fun n hn => by rw [htab, Function.update_of_ne hn], ?_⟩
    · simp [nr_reg_unregister_callback, hcb, hv, nr_reg_validate_action, hb, h.fetch_some ht.entry, ht.assoc, hd, hr',
        hnz]
    · rw [if_neg h0]
      refine ⟨⟨t', ⟨ht.entry, by simp, hin'⟩, hsame, hbod⟩, fun hreg => ?_⟩
      have hnone : t.entry (compute_cb_id cb b) = none := by simpa [Cbs.regs, ht.table, r_assoc.get] using hreg
      rw [habs hnone, ← ht.assoc, Function.update_eq_self]

theorem unregister_absent {s : Cbs} (h : CInv s) {name : Bytes} {cb : UInt64} (hcb : cb ≠ 0)
    (hv : nr_reg_is_valid name = .ok) {b : UInt8} (hb : b ∈ CB_ACTIONS) (ht : s.table name = none) :
    nr_reg_unregister_callback s name b cb = some (.ok, s) := by
  simp [nr_reg_unregister_callback, hcb, hv, nr_reg_validate_action, hb, h.fetch_none ht]

/-! ## Masks of actions -/

/-- The actions in a mask. -/
def bits (mask : UInt8) : List UInt8 := CB_ACTIONS.filter fun a => mask &&& a ≠ 0

/-- `f` for each action of a list, until one fails. -/
def each (f : Cbs → UInt8 → Option (Status × Cbs)) : List UInt8 → Cbs → Option (Status × Cbs)
  | [], s => some (.ok, s)
  | a :: as, s => match f s a with
    | none => none
    | some (.ok, s) => each f as s
    | some (r, s) => some (r, s)

theorem and_not_and {m a b : UInt8} (h : a &&& b = 0) : m &&& ~~~a &&& b = m &&& b := by
  have hb : ~~~a &&& b = b := by
    apply UInt8.eq_of_toBitVec_eq
    apply BitVec.eq_of_getElem_eq
    intro i hi
    have hbit := congrArg (fun v => v.toBitVec[i]) h
    simp at hbit ⊢
    grind
  rw [UInt8.and_assoc, hb]

theorem and_not_of_and {m a : UInt8} (h : m &&& a = 0) : m &&& ~~~a = m := by
  apply UInt8.eq_of_toBitVec_eq
  apply BitVec.eq_of_getElem_eq
  intro i hi
  have hbit := congrArg (fun v => v.toBitVec[i]) h
  simp at hbit ⊢
  grind

/-- The bits of a mask that are no action. -/
def leftover (mask : UInt8) : UInt8 := CB_ACTIONS.foldl (fun m a => m &&& ~~~a) mask

/-- What the two public functions return when every action in the mask was
carried out. -/
def maskStatus (mask : UInt8) : Status := if leftover mask = 0 then .ok else .R_BAD_ARGS

/-- The loop over `CB_ACTIONS` takes the actions in the mask, in order, and
then looks for bits that are left. -/
theorem for_actions_each (f : Cbs → UInt8 → Option (Status × Cbs)) {as : List UInt8}
    (hd : as.Pairwise fun a b => a &&& b = 0) (mask : UInt8) (s : Cbs) :
    for_actions f as mask s = (each f (as.filter fun a => mask &&& a ≠ 0) s).map fun r =>
      (if r.1 = .ok then (if as.foldl (fun m a => m &&& ~~~a) mask = 0 then .ok else .R_BAD_ARGS) else r.1, r.2) := by
  induction as generalizing mask s with
  | nil => rfl
  | cons a as ih =>
    obtain ⟨hda, hd⟩ := List.pairwise_cons.1 hd
    rw [for_actions, List.foldl_cons]
    by_cases hm : mask &&& a ≠ 0
    · have hfil : (as.filter fun b => mask &&& ~~~a &&& b ≠ 0) = as.filter fun b => mask &&& b ≠ 0 :=
        List.filter_congr fun b hb => by rw [and_not_and (hda b hb)]
      rw [if_pos hm, List.filter_cons_of_pos (by simpa using hm), each]
      cases hf : f s a with
      | none => rfl
      | some r =>
        obtain ⟨r, s'⟩ := r
        by_cases hr : r = .ok
        · subst hr
          rw [← hfil]
          exact ih hd (mask &&& ~~~a) s'
        · cases r <;> simp_all
    · rw [if_neg hm, List.filter_cons_of_neg (by simpa using hm), and_not_of_and (not_not.1 hm)]
      exact ih hd mask s

theorem cb_actions_disjoint : CB_ACTIONS.Pairwise fun a b => a &&& b = 0 := by decide

theorem for_actions_bits (f : Cbs → UInt8 → Option (Status × Cbs)) (mask : UInt8) (s : Cbs) :
    for_actions f CB_ACTIONS mask s = (each f (bits mask) s).map fun r =>
      (if r.1 = .ok then maskStatus mask else r.1, r.2) :=
  for_actions_each f cb_actions_disjoint mask s

theorem mem_bits {mask a : UInt8} (h : a ∈ bits mask) : a ∈ CB_ACTIONS := (List.mem_filter.1 h).1

theorem setReg_nil (m : Bytes → UInt8 → UInt64 → Option UInt64) (name : Bytes) (cb : UInt64) (v : Option UInt64) :
    setReg m name [] cb v = m := by
  funext n a c
  simp [setReg]

theorem setReg_cons (m : Bytes → UInt8 → UInt64 → Option UInt64) (name : Bytes) (a : UInt8) (l : List UInt8)
    (cb : UInt64) (v : Option UInt64) :
    setReg (setReg m name [a] cb v) name l cb v = setReg m name (a :: l) cb v := by
  funext n b c
  simp only [setReg, List.mem_cons, List.not_mem_nil, or_false]
  by_cases hn : n = name <;> by_cases hc : c = cb <;> by_cases hb : b = a <;> by_cases hl : b ∈ l <;> simp [*]

/-- What both functions answer, before they look at the table, to arguments
they refuse. -/
def refusal (name : Bytes) (cb : UInt64) : Status := if cb = 0 then .R_BAD_ARGS else nr_reg_is_valid name

theorem refusal_ok {name : Bytes} {cb : UInt64} : refusal name cb = .ok ↔ cb ≠ 0 ∧ nr_reg_is_valid name = .ok := by
  by_cases hcb : cb = 0 <;> simp [refusal, hcb]

theorem register_refused {s : Cbs} {name : Bytes} {action : UInt8} {cb cb_arg : UInt64} (h : refusal name cb ≠ .ok) :
    nr_reg_register_callback s name action cb cb_arg = some (refusal name cb, s) := by
  by_cases hcb : cb = 0
  · simp [nr_reg_register_callback, refusal, hcb]
  · rw [refusal, if_neg hcb] at h ⊢
    simp [nr_reg_register_callback, hcb, h]

theorem unregister_refused {s : Cbs} {name : Bytes} {action : UInt8} {cb : UInt64} (h : refusal name cb ≠ .ok) :
    nr_reg_unregister_callback s name action cb = some (refusal name cb, s) := by
  by_cases hcb : cb = 0
  · simp [nr_reg_unregister_callback, refusal, hcb]
  · rw [refusal, if_neg hcb] at h ⊢
    simp [nr_reg_unregister_callback, hcb, h]

/-- The first action that is refused ends the loop. -/
theorem each_refused {f : Cbs → UInt8 → Option (Status × Cbs)} {s : Cbs} {r : Status} (hr : r ≠ .ok)
    (hf : ∀ a, f s a = some (r, s)) (l : List UInt8) : each f l s = some (if l = [] then .ok else r, s) := by
  cases l with
  | nil => rfl
  | cons a l =>
    rw [each, hf, if_neg (List.cons_ne_nil a l)]
    cases r <;> simp_all

/-- Registering for each action of a list: none of them, when the arguments
are refused, or else all. -/
theorem each_register {s : Cbs} (h : CInv s) (name : Bytes) (cb cb_arg : UInt64) {l : List UInt8}
    (hl : ∀ a ∈ l, a ∈ CB_ACTIONS) :
    ∃ s', each (fun s a => nr_reg_register_callback s name a cb cb_arg) l s =
        some (if l = [] then .ok else refusal name cb, s') ∧ CInv s' ∧
      s'.regs = if refusal name cb = .ok then setReg s.regs name l cb (some cb_arg) else s.regs := by
  by_cases hok : refusal name cb = .ok
  · obtain ⟨hcb, hv⟩ := refusal_ok.1 hok
    simp only [hok, ite_self, if_true]
    induction l generalizing s with
    | nil => exact ⟨s, rfl, h, (setReg_nil ..).symm⟩
    | cons a l ih =>
      obtain ⟨s₁, hreg, hinv, hregs⟩ := register_spec h cb_arg hcb hv (hl a (by simp))
      obtain ⟨s', heach, hinv', hregs'⟩ := ih hinv fun b hb => hl b (by simp [hb])
      refine ⟨s', ?_, hinv', ?_⟩
      · rw [each, hreg]
        exact heach
      · rw [hregs', hregs, setReg_cons]
  · exact ⟨s, each_refused hok (fun a => register_refused hok) l, h, by rw [if_neg hok]⟩

/-- Registering for a mask of actions. -/
theorem NR_reg_register_spec {s : Cbs} (h : CInv s) (name : Bytes) (mask : UInt8) (cb cb_arg : UInt64) :
    ∃ s', NR_reg_register_callback s name mask cb cb_arg =
        some (if bits mask = [] ∨ refusal name cb = .ok then maskStatus mask else refusal name cb, s') ∧ CInv s' ∧
      s'.regs = if refusal name cb = .ok then setReg s.regs name (bits mask) cb (some cb_arg) else s.regs := by
  obtain ⟨s', heach, hinv, hregs⟩ := each_register h name cb cb_arg (l := bits mask) fun a => mem_bits
  refine ⟨s', ?_, hinv, hregs⟩
  rw [NR_reg_register_callback, for_actions_bits, heach]
  by_cases hnil : bits mask = [] <;> by_cases hok : refusal name cb = .ok <;> simp [hnil, hok]

/-- Registering under a valid name for the actions of a mask without other
bits. -/
theorem NR_reg_register_ok {s : Cbs} (h : CInv s) {name : Bytes} {cb : UInt64} (cb_arg : UInt64) (hcb : cb ≠ 0)
    (hv : nr_reg_is_valid name = .ok) {mask : UInt8} (hm : leftover mask = 0) :
    ∃ s', NR_reg_register_callback s name mask cb cb_arg = some (.ok, s') ∧ CInv s' ∧
      s'.regs = setReg s.regs name (bits mask) cb (some cb_arg) := by
  obtain ⟨s', hreg, hs', hregs⟩ := NR_reg_register_spec h name mask cb cb_arg
  have hok := refusal_ok.2 ⟨hcb, hv⟩
  rw [if_pos (.inr hok), maskStatus, if_pos hm] at hreg
  rw [if_pos hok] at hregs
  exact ⟨s', hreg, hs', hregs⟩

end Nrappkit.Registry
