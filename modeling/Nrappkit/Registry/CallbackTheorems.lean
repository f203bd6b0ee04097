import Nrappkit.Lib.Runs
import Nrappkit.Registry.Dispatch
/-!
# Theorems about callbacks

The machine is the callback table; its inputs are the two public functions. A
run's history determines what is `registered`: the argument of the latest
registration of a callback for an action on a name that no later call undid.
-/
open Lib Nrappkit.Assoc

namespace Nrappkit.Registry

/-! ## The infos of a name are its registrations -/

theorem CInv.mem_infos {s : Cbs} (h : CInv s) {name : Bytes} {x : nr_reg_cb_info} (hx : x ∈ s.infos name) :
    x.name = name ∧ x.action ∈ CB_ACTIONS ∧ s.regs name x.action x.cb = some x.cb_arg := by
  cases ht : s.table name with
  | none => simp [Cbs.infos, ht] at hx
  | some t =>
    obtain ⟨a, cs, -, -, -, -, hin⟩ := h.table_some ht
    rw [Cbs.infos, ht, Option.map_some, Option.getD_some, hin.rep.elements_eq, List.mem_filterMap] at hx
    obtain ⟨p, -, hp⟩ := hx
    obtain ⟨e, he, rfl⟩ := Option.map_eq_some_iff.1 hp
    obtain ⟨-, hname, hk, hact, -⟩ := hin.info e.key _ (hin.rep.entry_eq_some.2 ⟨p, e, he, rfl⟩)
    refine ⟨hname, hact, ?_⟩
    have hget : t.get (compute_cb_id e.data.cb e.data.action) = some e.data :=
      hin.rep.get_eq_some.2 ⟨p, e, he, hk, rfl⟩
    simp [Cbs.regs, ht, hget]

theorem CInv.infos_of_regs {s : Cbs} (h : CInv s) {name : Bytes} {action : UInt8} {cb arg : UInt64}
    (hr : s.regs name action cb = some arg) : { action, cb, cb_arg := arg, name } ∈ s.infos name := by
  simp only [Cbs.regs, Option.map_eq_some_iff, Option.bind_eq_some_iff] at hr
  obtain ⟨x, ⟨t, ht, hx⟩, rfl⟩ := hr
  obtain ⟨a, cs, -, -, -, -, hin⟩ := h.table_some ht
  obtain ⟨p, e, he, hkey, rfl⟩ := hin.rep.get_eq_some.1 hx
  obtain ⟨-, hname, hk, -⟩ := hin.info e.key _ (hin.rep.entry_eq_some.2 ⟨p, e, he, rfl⟩)
  obtain ⟨hcb, hact⟩ := compute_cb_id_inj.1 (hkey.symm.trans hk)
  rw [Cbs.infos, ht, Option.map_some, Option.getD_some, hin.rep.elements_eq, List.mem_filterMap]
  refine ⟨p, hin.rep.mem_order.2 ⟨e, he⟩, ?_⟩
  dsimp only at hname
  rw [he, Option.map_some, ← hname, hcb, hact]

/-- A registration is in the table exactly when its info block is. -/
theorem CInv.mem_infos_iff {s : Cbs} (h : CInv s) {name : Bytes} {x : nr_reg_cb_info} :
    x ∈ s.infos name ↔ x.name = name ∧ s.regs name x.action x.cb = some x.cb_arg := by
  constructor
  · intro hx
    exact ⟨(h.mem_infos hx).1, (h.mem_infos hx).2.2⟩
  · rintro ⟨rfl, hr⟩
    exact h.infos_of_regs hr

theorem CInv.infos_pairwise {s : Cbs} (h : CInv s) (name : Bytes) :
    (s.infos name).Pairwise fun x y => ¬ (x.cb = y.cb ∧ x.action = y.action) := by
  cases ht : s.table name with
  | none => simp [Cbs.infos, ht]
  | some t =>
    obtain ⟨a, cs, -, -, -, -, hin⟩ := h.table_some ht
    rw [Cbs.infos, ht]
    exact hin.pairwise

/-- The outer table has an entry for a name exactly when something is
registered on it. -/
theorem CInv.outer_iff {s : Cbs} (h : CInv s) (name : Bytes) :
    (s.nr_registry_callbacks.get (nameKey name)).isSome ↔ ∃ action cb arg, s.regs name action cb = some arg := by
  constructor
  · intro hg
    obtain ⟨a, ha⟩ := Option.isSome_iff_exists.1 hg
    obtain ⟨t, cs, ht, hin⟩ := h.inner name a ha
    obtain ⟨p, hp⟩ := List.exists_mem_of_ne_nil _ hin.nonempty
    obtain ⟨y, hy⟩ := infoAt_some hin.rep hp
    have hmem : y ∈ s.infos name := by
      rw [Cbs.infos, Cbs.table, ha, Option.bind_some, ht, Option.map_some, Option.getD_some, hin.rep.elements_eq]
      exact List.mem_filterMap.2 ⟨p, hp, hy⟩
    exact ⟨y.action, y.cb, y.cb_arg, (h.mem_infos_iff.1 hmem).2⟩
  · rintro ⟨action, cb, arg, hr⟩
    cases hg : s.nr_registry_callbacks.get (nameKey name) with
    | none => simp [Cbs.regs, Cbs.table, hg] at hr
    | some a => rfl

/-! ## The calls of an event -/

/-- `key` is the name of the event, one of its ancestors or the root. -/
def OnPath (key name : Bytes) : Prop := key = name ∨ Ancestor key name ∨ key = []

/-- The calls for everything registered on the path. -/
def callsOf (s : Cbs) (name : Bytes) (action : UInt8) : List Invocation :=
  (path (name.length + 1) name).flatMap (callsOn s name action)

theorem CInv.mem_callsOn {s : Cbs} (h : CInv s) {name key : Bytes} {action : UInt8} {c : Invocation} :
    c ∈ callsOn s name action key ↔
      c.key = key ∧ c.name = name ∧ c.action = action ∧ s.regs key action c.cb = some c.cb_arg := by
  rw [callsOn, List.mem_map]
  constructor
  · rintro ⟨x, hx, rfl⟩
    rw [List.mem_filter, decide_eq_true_eq] at hx
    obtain ⟨hmem, rfl⟩ := hx
    exact ⟨(h.mem_infos_iff.1 hmem).1, rfl, rfl, (h.mem_infos_iff.1 hmem).2⟩
  · rintro ⟨rfl, rfl, rfl, hr⟩
    refine ⟨{ action := c.action, cb := c.cb, cb_arg := c.cb_arg, name := c.key }, ?_, rfl⟩
    rw [List.mem_filter, decide_eq_true_eq]
    exact ⟨h.infos_of_regs hr, rfl⟩

theorem CInv.mem_callsOf {s : Cbs} (h : CInv s) {name : Bytes} {action : UInt8} {c : Invocation} :
    c ∈ callsOf s name action ↔
      OnPath c.key name ∧ c.name = name ∧ c.action = action ∧ s.regs c.key action c.cb = some c.cb_arg := by
  rw [callsOf, List.mem_flatMap]
  constructor
  · rintro ⟨key, hkey, hc⟩
    obtain ⟨rfl, hn, ha, hr⟩ := h.mem_callsOn.1 hc
    exact ⟨(mem_path (Nat.lt_succ_self _)).1 hkey, hn, ha, hr⟩
  · rintro ⟨hp, hn, ha, hr⟩
    exact ⟨c.key, (mem_path (Nat.lt_succ_self _)).2 hp, h.mem_callsOn.2 ⟨rfl, hn, ha, hr⟩⟩

/-- No callback is called twice for one key. -/
theorem CInv.callsOf_nodup {s : Cbs} (h : CInv s) (name : Bytes) (action : UInt8) :
    ((callsOf s name action).map fun c => (c.key, c.cb)).Nodup := by
  rw [List.Nodup, List.pairwise_map, callsOf, List.pairwise_flatMap]
  refine ⟨fun key _ => ?_, (path_nodup (Nat.lt_succ_self _)).imp ?_⟩
  · rw [callsOn, List.pairwise_map, List.pairwise_filter]
    refine (h.infos_pairwise key).imp ?_
    intro x y hxy hx hy he
    rw [decide_eq_true_eq] at hx hy
    exact hxy ⟨congrArg Prod.snd he, by rw [hx, hy]⟩
  · intro k k' hkk c hc d hd he
    rw [← (h.mem_callsOn.1 hc).1, ← (h.mem_callsOn.1 hd).1] at hkk
    exact hkk (congrArg Prod.fst he)

/-- Deeper keys come first. -/
theorem CInv.callsOf_deep {s : Cbs} (h : CInv s) (name : Bytes) (action : UInt8) :
    (callsOf s name action).Pairwise fun c d => d.key.length ≤ c.key.length := by
  rw [callsOf, List.pairwise_flatMap]
  refine ⟨fun key _ => List.pairwise_of_forall_mem_list fun c hc d hd => ?_,
    (path_pairwise (Nat.lt_succ_self _)).imp ?_⟩
  · have hkey : d.key = c.key := by rw [(h.mem_callsOn.1 hc).1, (h.mem_callsOn.1 hd).1]
    exact Nat.le_of_eq (congrArg List.length hkey)
  · intro k k' hkk c hc d hd
    rw [(h.mem_callsOn.1 hc).1, (h.mem_callsOn.1 hd).1]
    omega

/-! ## Callbacks that unregister themselves -/

/-- Nothing is registered for the action on the path. -/
def nothingToCall (s : Cbs) (name : Bytes) (action : UInt8) : Bool := (callsOf s name action).isEmpty

/-- The walk of every inner table on the path is safe, and the test of
`nr_reg_raise_event` on the number of names does not skip a registration. -/
def dispatchSafe (beh : nr_reg_cb_info → UInt8) (s : Cbs) (name : Bytes) (action : UInt8) : Bool :=
  (path (name.length + 1) name).all (safe beh action s) &&
    (decide (0 < r_assoc_num_elements s.nr_registry_callbacks) || nothingToCall s name action)

/-- The event is dispatched without leaving the tables, and each callback that
was registered for it is called exactly once. -/
def AllInvokedOnce (beh : nr_reg_cb_info → UInt8) (s : Cbs) (name : Bytes) (action : UInt8) : Prop :=
  ∃ s' calls, nr_reg_raise_event beh s name action = some (.ok, s', calls) ∧
    ∀ key cb arg, OnPath key name → s.regs key action cb = some arg →
      (calls.map fun c => (c.key, c.cb)).count (key, cb) = 1

theorem raise_eq (beh : nr_reg_cb_info → UInt8) {s : Cbs} {action : UInt8} (ha : action ∈ CB_ACTIONS) (name : Bytes) :
    nr_reg_raise_event beh s name action =
      if 0 < r_assoc_num_elements s.nr_registry_callbacks then
        nr_reg_raise_event_recurse beh name action (name.length + 1) name s
      else some (.ok, s, []) := by
  simp [nr_reg_raise_event, nr_reg_validate_action, ha]

theorem safeFrom_idle {beh : nr_reg_cb_info → UInt8} {action : UInt8} {table xs : List nr_reg_cb_info}
    (h : ∀ x ∈ xs, x.action ≠ action) : safeFrom beh action table xs = true := by
  induction xs with
  | nil => rfl
  | cons x xs ih =>
    have ih := ih fun y hy => h y (by simp [hy])
    rw [safeFrom, if_neg (h x (by simp)), ih, ite_self]

/-- A dispatch that is safe makes the calls, and one that is not leaves a table
or skips a registration. -/
theorem invoked_iff_safe {s : Cbs} (h : CInv s) (beh : nr_reg_cb_info → UInt8) (name : Bytes) {action : UInt8}
    (ha : action ∈ CB_ACTIONS) : AllInvokedOnce beh s name action ↔ dispatchSafe beh s name action = true := by
  obtain ⟨hsafe, hleave⟩ := recurse_spec beh name action (name.length + 1) h (Nat.lt_succ_self _)
  have hcount : ∀ key cb arg, OnPath key name → s.regs key action cb = some arg →
      ((callsOf s name action).map fun c => (c.key, c.cb)).count (key, cb) = 1 := by
    intro key cb arg hk hr
    refine List.count_eq_one_of_mem (h.callsOf_nodup name action) (List.mem_map.2 ?_)
    exact ⟨{ key, cb, cb_arg := arg, action, name }, h.mem_callsOf.2 ⟨hk, rfl, rfl, hr⟩, rfl⟩
  rw [AllInvokedOnce, raise_eq beh ha, dispatchSafe, Bool.and_eq_true, List.all_eq_true, Bool.or_eq_true,
    decide_eq_true_eq]
  by_cases hpos : 0 < r_assoc_num_elements s.nr_registry_callbacks
  · simp only [hpos, if_true, true_or, and_true]
    constructor
    · rintro ⟨s', calls, heq, -⟩
      by_contra hne
      rw [hleave hne] at heq
      cases heq
    · intro hall
      obtain ⟨s', heq, -⟩ := hsafe hall
      exact ⟨s', _, heq, hcount⟩
  · simp only [hpos, if_false, Option.some.injEq, Prod.mk.injEq, true_and, false_or]
    constructor
    · rintro ⟨s', calls, heq, hcalls⟩
      obtain ⟨-, rfl⟩ := heq
      have hnone : callsOf s name action = [] := by
        rw [List.eq_nil_iff_forall_not_mem]
        intro c hc
        obtain ⟨hp, -, -, hr⟩ := h.mem_callsOf.1 hc
        have := hcalls c.key c.cb c.cb_arg hp hr
        simp at this
      refine ⟨fun k hk => safeFrom_idle fun x hx hact => ?_, by rw [nothingToCall, hnone]; rfl⟩
      have hmem : x.invoke name action ∈ callsOf s name action := by
        refine List.mem_flatMap.2 ⟨k, hk, List.mem_map.2 ⟨x, List.mem_filter.2 ⟨hx, by simpa using hact⟩, rfl⟩⟩
      rw [hnone] at hmem
      cases hmem
    · rintro ⟨-, hnothing⟩
      refine ⟨s, [], ⟨rfl, rfl⟩, fun key cb arg hk hr => ?_⟩
      have hone := hcount key cb arg hk hr
      rw [nothingToCall, List.isEmpty_iff] at hnothing
      rw [hnothing] at hone
      exact hone

/-! ## The machine -/

inductive CbOp where
  | register (name : Bytes) (action : UInt8) (cb cb_arg : UInt64)
  | unregister (name : Bytes) (action : UInt8) (cb : UInt64)

def cbStep (s : Cbs) : CbOp → Option (Status × Cbs)
  | .register name action cb cb_arg => NR_reg_register_callback s name action cb cb_arg
  | .unregister name action cb => NR_reg_unregister_callback s name action cb

/-- Unregistering on a name without a table, with arguments that are refused
or for no action, changes nothing; otherwise it does what `each_unregister`
says. -/
theorem each_unregister_cases {s : Cbs} (h : CInv s) (name : Bytes) (cb : UInt64) {l : List UInt8}
    (hl : ∀ a ∈ l, a ∈ CB_ACTIONS) :
    ∃ s', each (fun s a => nr_reg_unregister_callback s name a cb) l s =
        some (if l = [] then .ok else refusal name cb, s') ∧ CInv s' ∧
      (s' = s ∧ (l = [] ∨ refusal name cb ≠ .ok ∨ s.table name = none) ∨
        l ≠ [] ∧ refusal name cb = .ok ∧ (∀ n ≠ name, s'.table n = s.table n) ∧
          ∃ a t cs, Holds s name a t cs ∧ if survivors cb l t.elements = none then Dead name a s'
            else ∃ t', Alive name a t cs (keeps t cb l) s' t') := by
  by_cases hok : refusal name cb = .ok
  · obtain ⟨hcb, hv⟩ := refusal_ok.1 hok
    rw [hok, ite_self]
    by_cases hnil : l = []
    · subst hnil
      exact ⟨s, rfl, h, .inl ⟨rfl, .inl rfl⟩⟩
    · cases ht : s.table name with
      | none => exact ⟨s, each_unregister_absent h hcb hv hl ht, h, .inl ⟨rfl, .inr (.inr rfl)⟩⟩
      | some t =>
        obtain ⟨a, cs, hx, hst, -, -, hin⟩ := h.table_some ht
        obtain ⟨s', heach, hinv, hoth, hcase⟩ := each_unregister h hcb hv hl ⟨hx, hst, hin⟩
        exact ⟨s', heach, hinv, .inr ⟨hnil, rfl, hoth, a, t, cs, ⟨hx, hst, hin⟩, hcase⟩⟩
  · exact ⟨s, each_refused hok (fun a => unregister_refused hok) l, h, .inl ⟨rfl, .inr (.inl hok)⟩⟩

theorem NR_reg_unregister_total {s : Cbs} (h : CInv s) (name : Bytes) (mask : UInt8) (cb : UInt64) :
    ∃ r s', NR_reg_unregister_callback s name mask cb = some (r, s') ∧ CInv s' := by
  obtain ⟨s', heach, hinv, -⟩ := each_unregister_cases h name cb (l := bits mask) fun a => mem_bits
  exact ⟨_, s', by rw [NR_reg_unregister_eq, heach]; rfl, hinv⟩

/-- Every call returns and keeps the invariant. -/
theorem cbStep_total {s : Cbs} (h : CInv s) (op : CbOp) : ∃ r s', cbStep s op = some (r, s') ∧ CInv s' := by
  cases op with
  | register name action cb cb_arg =>
    obtain ⟨s', hreg, hinv, -⟩ := NR_reg_register_spec h name action cb cb_arg
    exact ⟨_, s', hreg, hinv⟩
  | unregister name action cb => exact NR_reg_unregister_total h name action cb

/-- Every run keeps the invariant. -/
theorem run_cinv {ok : Cbs → CbOp → Prop} {evs : List (CbOp × Status)} {s : Cbs}
    (hrun : Run cbStep ok nr_reg_cb_init evs s) : CInv s := by
  refine hrun.inv CInv init_cinv fun s op r s' h _ hst => ?_
  obtain ⟨r₁, s₁, heq, hinv⟩ := cbStep_total h op
  rw [heq] at hst
  cases hst
  exact hinv

/-- In every table a run can reach, and whatever each callback unregisters of
its own while it runs: a dispatch never walks to a released element or table
and calls each registered callback once exactly when `dispatchSafe` holds of
the table before the event. -/
theorem self_unregister_iff_safe {evs : List (CbOp × Status)} {s : Cbs}
    (hrun : Run cbStep (fun _ _ => True) nr_reg_cb_init evs s) (beh : nr_reg_cb_info → UInt8) (name : Bytes)
    {action : UInt8} (ha : action ∈ CB_ACTIONS) :
    AllInvokedOnce beh s name action ↔ dispatchSafe beh s name action = true :=
  invoked_iff_safe (run_cinv hrun) beh name ha

/-- A callback on the root for two actions that drops the one it is called
for: the walk goes on to the other. -/
theorem self_unregister_one_action :
    ∃ s, Run cbStep (fun _ _ => True) nr_reg_cb_init [(.register [] 5 8 0, .ok)] s ∧
      AllInvokedOnce (fun _ => NR_REG_CB_ACTION_ADD) s (str "a.b") NR_REG_CB_ACTION_ADD := by
  have hex : (exec cbStep (fun _ _ => true) nr_reg_cb_init [.register [] 5 8 0]).any (fun r => r.1 = [.ok] &&
      dispatchSafe (fun _ => NR_REG_CB_ACTION_ADD) r.2 (str "a.b") NR_REG_CB_ACTION_ADD) = true := by decide +kernel
  obtain ⟨⟨rs, s⟩, hrun, hr⟩ := (Option.any_eq_true _ _).1 hex
  obtain ⟨hrs, hsafe⟩ := Bool.and_eq_true_iff.1 hr
  obtain rfl : rs = [.ok] := by simpa using hrs
  have hrun : Run cbStep (fun _ _ => True) nr_reg_cb_init _ s := (Run.exec .nil hrun).mono fun _ _ _ => trivial
  exact ⟨s, hrun, (self_unregister_iff_safe hrun _ _ (by decide)).2 hsafe⟩

/-- The same callback dropping both of its actions: the walk has saved the
other element, which is released with the table. -/
theorem self_unregister_both_actions :
    ∃ s, Run cbStep (fun _ _ => True) nr_reg_cb_init [(.register [] 5 8 0, .ok)] s ∧
      nr_reg_raise_event (fun _ => 5) s (str "a.b") NR_REG_CB_ACTION_ADD = none ∧
      ¬ AllInvokedOnce (fun _ => 5) s (str "a.b") NR_REG_CB_ACTION_ADD := by
  have hex : (exec cbStep (fun _ _ => true) nr_reg_cb_init [.register [] 5 8 0]).any (fun r => r.1 = [.ok] &&
      (nr_reg_raise_event (fun _ => 5) r.2 (str "a.b") NR_REG_CB_ACTION_ADD).isNone) = true := by decide +kernel
  obtain ⟨⟨rs, s⟩, hrun, hr⟩ := (Option.any_eq_true _ _).1 hex
  obtain ⟨hrs, hnone⟩ := Bool.and_eq_true_iff.1 hr
  obtain rfl : rs = [.ok] := by simpa using hrs
  have hraise := Option.isNone_iff_eq_none.1 hnone
  refine ⟨s, (Run.exec .nil hrun).mono fun _ _ _ => trivial, hraise, ?_⟩
  rintro ⟨s', calls, hsome, -⟩
  rw [hraise] at hsome
  cases hsome

/-! ## The dispatch law -/

/-- What a call does to the registrations. -/
def CbOp.apply (m : Bytes → UInt8 → UInt64 → Option UInt64) : CbOp → Bytes → UInt8 → UInt64 → Option UInt64
  | .register name action cb cb_arg => setReg m name (bits action) cb (some cb_arg)
  | .unregister name action cb => setReg m name (bits action) cb none

/-- What is registered after a sequence of calls: for a name, an action and a
callback, the argument of the latest registration. -/
def registered (ops : List CbOp) : Bytes → UInt8 → UInt64 → Option UInt64 :=
  ops.foldl CbOp.apply fun _ _ _ => none

/-- The table `s` dispatches as the registrations `m` ask. -/
structure DispatchLaw (m : Bytes → UInt8 → UInt64 → Option UInt64) (s : Cbs) : Prop where
  /-- An event calls exactly what is registered for it on its path, with the
  argument registered last and the name of the event, each once, the deeper
  keys first, and leaves the table alone. -/
  raise : ∀ name action, action ∈ CB_ACTIONS → ∃ calls,
    nr_reg_raise_event (fun _ => 0) s name action = some (.ok, s, calls) ∧
      (∀ c, c ∈ calls ↔
        OnPath c.key name ∧ c.name = name ∧ c.action = action ∧ m c.key action c.cb = some c.cb_arg) ∧
      (calls.map fun c => (c.key, c.cb)).Nodup ∧ calls.Pairwise fun c d => d.key.length ≤ c.key.length
  /-- Unregistering what is not registered changes nothing. -/
  unregister : ∀ name mask cb, (∀ a ∈ bits mask, m name a cb = none) →
    ∃ r, NR_reg_unregister_callback s name mask cb = some (r, s)
  outer : ∀ name, (s.nr_registry_callbacks.get (nameKey name)).isSome ↔ ∃ action cb arg, m name action cb = some arg

/-- The counters of `s` have not wrapped: fewer than 2^31 names hold
registrations, and each holds fewer than 2^32. -/
def Small (s : Cbs) : Prop :=
  s.nr_registry_callbacks.entries < 2 ^ 31 ∧ ∀ a < s.brk, (s.assocs a).all fun t => t.entries < 2 ^ 32

instance (s : Cbs) : Decidable (Small s) := inferInstanceAs (Decidable (_ ∧ _))

theorem Small.holds {s : Cbs} (hs : Small s) (h : CInv s) {name : Bytes} {a : Ptr} {t : r_assoc nr_reg_cb_info}
    {cs : Nat → List Ptr} (ht : Holds s name a t cs) : (order t cs).length < 2 ^ 32 := by
  have hlt := (h.names.entry _ _ ht.entry).2.1
  have := hs.2 a hlt
  rw [ht.assoc, Option.all_some, decide_eq_true_eq, ht.inner.rep.entries_eq] at this
  exact this

theorem survivors_none {cb : UInt64} {l : List UInt8} {xs : List nr_reg_cb_info} (hs : xs.length < 2 ^ 32)
    (h : survivors cb l xs = none) : ∀ x ∈ xs, ofActions cb l x = true := by
  induction l generalizing xs with
  | nil => cases h
  | cons b l ih =>
    have hle := List.length_filter_le (fun x => !ofActions cb [b] x) xs
    rw [survivors] at h
    intro x hx
    rw [ofActions_cons]
    cases hb : ofActions cb [b] x with
    | true => rfl
    | false =>
      have hmem : x ∈ xs.filter fun x => !ofActions cb [b] x := List.mem_filter.2 ⟨hx, by rw [hb]; rfl⟩
      split at h
      · rename_i h0
        rw [Nat.mod_eq_of_lt (Nat.lt_of_le_of_lt hle hs)] at h0
        rw [List.length_eq_zero_iff.1 h0] at hmem
        cases hmem
      · exact ih (Nat.lt_of_le_of_lt hle hs) h x hmem

/-- Setting registrations to what they are. -/
theorem setReg_eq_self {m : Bytes → UInt8 → UInt64 → Option UInt64} {name : Bytes} {l : List UInt8} {cb : UInt64}
    {v : Option UInt64} : setReg m name l cb v = m ↔ ∀ a ∈ l, m name a cb = v := by
  constructor
  · intro h a ha
    rw [← h, setReg, if_pos ⟨rfl, ha, rfl⟩]
  · intro h
    funext n a c
    rw [setReg]
    split
    · rename_i hc
      obtain ⟨rfl, ha, rfl⟩ := hc
      exact (h a ha).symm
    · rfl

/-- An inner table that is still there has lost the infos it was asked to drop
and no others. -/
theorem Alive.infos {s s' : Cbs} {name : Bytes} {cb : UInt64} {l : List UInt8} {a : Ptr} {t t' : r_assoc nr_reg_cb_info}
    {cs : Nat → List Ptr} (h : Alive name a t cs (keeps t cb l) s' t') (ht : Holds s name a t cs) :
    s'.infos name = (s.infos name).filter fun x => !ofActions cb l x := by
  rw [Cbs.infos, Cbs.infos, h.holds.table, ht.table, Option.map_some, Option.getD_some, Option.map_some,
    Option.getD_some, h.elements ht.inner.rep]

/-- With counters that have not wrapped, unregistering removes the infos it is
asked to remove and no others. -/
theorem infos_unregister {s s' : Cbs} (h : CInv s) (hs : Small s) {name : Bytes} {cb : UInt64} {l : List UInt8}
    {a : Ptr} {t : r_assoc nr_reg_cb_info} {cs : Nat → List Ptr} (ht : Holds s name a t cs)
    (hcase : if survivors cb l t.elements = none then Dead name a s'
      else ∃ t', Alive name a t cs (keeps t cb l) s' t') :
    s'.infos name = (s.infos name).filter fun x => !ofActions cb l x := by
  split at hcase
  · rename_i hnone
    have hlen : t.elements.length < 2 ^ 32 := by
      rw [ht.inner.rep.elements_eq]
      exact Nat.lt_of_le_of_lt (List.length_filterMap_le _ _) (hs.holds h ht)
    have hall := survivors_none hlen hnone
    rw [Cbs.infos, hcase.table, Option.map_none, Option.getD_none, eq_comm, List.filter_eq_nil_iff, Cbs.infos, ht.table]
    intro x hx
    simp [hall x hx]
  · obtain ⟨t', halive⟩ := hcase
    exact halive.infos ht

/-- A name that loses the infos of some actions loses these registrations. -/
theorem regs_of_infos {s s' : Cbs} (h : CInv s) (h' : CInv s') {name : Bytes} {cb : UInt64} {l : List UInt8}
    (hoth : ∀ n ≠ name, s'.table n = s.table n)
    (hinfos : s'.infos name = (s.infos name).filter fun x => !ofActions cb l x) :
    s'.regs = setReg s.regs name l cb none := by
  funext n b c
  refine Option.ext fun v => ?_
  have hmem : ∀ {s : Cbs}, CInv s → (s.regs n b c = some v ↔
      { action := b, cb := c, cb_arg := v, name := n } ∈ s.infos n) := fun h => by
    rw [h.mem_infos_iff]
    simp
  rw [hmem h', setReg]
  by_cases hn : n = name
  · subst hn
    rw [hinfos, List.mem_filter, ← hmem h]
    by_cases hc : b ∈ l ∧ c = cb
    · simp [ofActions, hc]
    · have hof : ofActions cb l { action := b, cb := c, cb_arg := v, name := n } = false := by
        rcases not_and_or.1 hc with hc | hc <;> simp [ofActions, hc]
      rw [hof, if_neg fun hc' => hc hc'.2]
      simp
  · rw [if_neg fun hc => hn hc.1, hmem h, Cbs.infos, Cbs.infos, hoth n hn]

theorem unregister_regs {s s' : Cbs} (h : CInv s) (hs : Small s) {name : Bytes} {mask : UInt8} {cb : UInt64}
    (hun : NR_reg_unregister_callback s name mask cb = some (.ok, s')) :
    s'.regs = setReg s.regs name (bits mask) cb none := by
  obtain ⟨s₁, heach, hinv, hcase⟩ := each_unregister_cases h name cb (l := bits mask) fun a => mem_bits
  rw [NR_reg_unregister_eq, heach] at hun
  simp only [Option.map_some, Option.some.injEq, Prod.mk.injEq] at hun
  obtain ⟨hr, rfl⟩ := hun
  rcases hcase with ⟨rfl, hno⟩ | ⟨-, -, hoth, a, t, cs, ht, hcase⟩
  · rcases hno with hnil | hno | hnone
    · rw [hnil, setReg_nil]
    · by_cases hnil : bits mask = []
      · rw [hnil, setReg_nil]
      · rw [if_neg hnil, if_neg hno] at hr
        exact absurd hr hno
    · exact (setReg_eq_self.2 fun a _ => by simp [Cbs.regs, hnone]).symm
  · exact regs_of_infos h hinv hoth (infos_unregister h hs ht hcase)

/-- Unregistering what is not registered leaves the state as it is. -/
theorem unregister_idle {s : Cbs} (h : CInv s) (hs : Small s) {name : Bytes} {mask : UInt8} {cb : UInt64}
    (hreg : ∀ a ∈ bits mask, s.regs name a cb = none) : ∃ r, NR_reg_unregister_callback s name mask cb = some (r, s) := by
  have hall : ∀ l : List UInt8, (∀ a ∈ l, a ∈ CB_ACTIONS) → (∀ a ∈ l, s.regs name a cb = none) →
      ∃ r, each (fun s a => nr_reg_unregister_callback s name a cb) l s = some (r, s) := by
    intro l hl hreg
    obtain ⟨s', heach, -, hcase⟩ := each_unregister_cases h name cb hl
    rcases hcase with ⟨rfl, -⟩ | ⟨-, hok, -, a, t, cs, ht, -⟩
    · exact ⟨_, heach⟩
    obtain ⟨hcb, hv⟩ := refusal_ok.1 hok
    -- The table is there and keeps all its elements at each action.
    clear heach
    induction l with
    | nil => exact ⟨.ok, rfl⟩
    | cons b l ih =>
      obtain ⟨s₁, hun, -, -, hcase⟩ := unregister_spec h hcb hv (hl b (by simp)) ht
      have hkeep : ∀ p ∈ order t cs, keeps t cb [b] p = true := by
        intro p hp
        obtain ⟨x, hx⟩ := infoAt_some ht.inner.rep hp
        rw [keeps_eq hx, Bool.not_eq_true']
        by_contra hne
        rw [Bool.not_eq_false, ofActions, Bool.and_eq_true, decide_eq_true_eq, decide_eq_true_eq,
          List.mem_singleton] at hne
        have hmem : x ∈ s.infos name := by
          rw [Cbs.infos, ht.table, Option.map_some, Option.getD_some, ht.inner.rep.elements_eq]
          exact List.mem_filterMap.2 ⟨p, hp, hx⟩
        have hsome := (h.mem_infos_iff.1 hmem).2
        rw [hne.1, hne.2, hreg b (by simp)] at hsome
        cases hsome
      have hpos : ¬ ((order t cs).filter (keeps t cb [b])).length % 2 ^ 32 = 0 := by
        rw [List.filter_eq_self.2 hkeep, Nat.mod_eq_of_lt (hs.holds h ht)]
        exact fun h0 => ht.inner.nonempty (List.length_eq_zero_iff.1 h0)
      rw [if_neg hpos] at hcase
      obtain rfl := hcase.2 (hreg b (by simp))
      rw [each, hun]
      exact ih (fun a ha => hl a (by simp [ha])) fun a ha => hreg a (by simp [ha])
  obtain ⟨r, heach⟩ := hall (bits mask) (fun a => mem_bits) hreg
  exact ⟨_, by rw [NR_reg_unregister_eq, heach]; rfl⟩

/-- The walk is safe when no callback unregisters anything. -/
theorem safeFrom_zero {action : UInt8} {table xs : List nr_reg_cb_info} :
    safeFrom (fun _ => 0) action table xs = true := by
  induction xs with
  | nil => rfl
  | cons x xs ih =>
    have hsv : survivors x.cb (bits 0) table = some table := rfl
    rw [safeFrom, ih, hsv]
    cases hf : xs.find? (· ∈ table) with
    | none => simp
    | some y =>
      have hy : y ∈ table := by simpa using List.find?_some hf
      simp [hy, ih]

/-- The number of names, while it fits the `int` it is read into. -/
theorem num_elements_pos {δ : Type} {t : r_assoc δ} {cs : Nat → List Ptr} (hr : Rep t cs)
    (hcount : t.num_elements = UInt32.ofNat (order t cs).length) (hs : t.entries < 2 ^ 31) (hne : order t cs ≠ []) :
    0 < r_assoc_num_elements t := by
  rw [hr.entries_eq] at hs
  have hpos : 0 < (order t cs).length := List.length_pos_iff.2 hne
  have hnat : (UInt32.ofNat (order t cs).length).toBitVec.toNat = (order t cs).length :=
    Nat.mod_eq_of_lt (show (order t cs).length < 2 ^ 32 by omega)
  have hint : r_assoc_num_elements t = ((order t cs).length : Int) := by
    rw [r_assoc_num_elements, hcount]
    change (UInt32.ofNat (order t cs).length).toBitVec.toInt = _
    rw [BitVec.toInt_eq_toNat_of_lt (by rw [hnat]; omega), hnat]
  omega

/-- A table in which only the names of a list hold registrations has no more
entries than the list has names. -/
theorem CInv.entries_le {s : Cbs} (h : CInv s) {names : List Bytes}
    (hn : ∀ n a c arg, s.regs n a c = some arg → n ∈ names) : s.nr_registry_callbacks.entries ≤ names.length := by
  obtain ⟨cs, hr, -⟩ := h.outer
  let key : Ptr → Bytes := fun p => ((s.nr_registry_callbacks.heap p).map (·.key)).getD []
  have hkey : ∀ {p e}, s.nr_registry_callbacks.heap p = some e → key p = e.key := fun he => by simp [key, he]
  have hnodup : ((order s.nr_registry_callbacks cs).map key).Nodup := by
    refine List.Nodup.map_on (fun p hp q hq hpq => ?_) hr.nodup_order
    obtain ⟨e, he⟩ := hr.mem_order.1 hp
    obtain ⟨e', he'⟩ := hr.mem_order.1 hq
    rw [hkey he, hkey he'] at hpq
    exact hr.keys p q e e' he he' hpq
  have hsub : (order s.nr_registry_callbacks cs).map key ⊆ names.map nameKey := by
    intro k hk
    obtain ⟨p, hp, rfl⟩ := List.mem_map.1 hk
    obtain ⟨e, he⟩ := hr.mem_order.1 hp
    rw [hkey he]
    have hx := hr.entry_eq_some.2 ⟨p, e, he, rfl⟩
    obtain ⟨-, -, n, hkn, -⟩ := h.names.entry e.key _ hx
    have hget : (s.nr_registry_callbacks.get (nameKey n)).isSome := by
      rw [r_assoc.get, ← hkn, hx]
      rfl
    obtain ⟨a, c, arg, hreg⟩ := (h.outer_iff n).1 hget
    rw [hkn]
    exact List.mem_map_of_mem (hn n a c arg hreg)
  have hle := (hnodup.subperm hsub).length_le
  rwa [List.length_map, List.length_map, ← hr.entries_eq] at hle

/-- A dispatch of callbacks that leave the table alone. -/
theorem raise_idle {s : Cbs} (h : CInv s) (hs : s.nr_registry_callbacks.entries < 2 ^ 31) (name : Bytes) {action : UInt8}
    (ha : action ∈ CB_ACTIONS) :
    nr_reg_raise_event (fun _ => 0) s name action = some (.ok, s, callsOf s name action) := by
  rw [raise_eq _ ha]
  by_cases hpos : 0 < r_assoc_num_elements s.nr_registry_callbacks
  · obtain ⟨s', heq, hleft⟩ := (recurse_spec (fun _ => 0) name action (name.length + 1) h (Nat.lt_succ_self _)).1
      fun k _ => safeFrom_zero
    rw [if_pos hpos, heq, hleft.idle fun _ => rfl]
    rfl
  · rw [if_neg hpos]
    -- No name holds a registration, so there is nothing to call.
    obtain ⟨cs, hr, hcount⟩ := h.outer
    have hempty : order s.nr_registry_callbacks cs = [] := by
      by_contra hne
      exact hpos (num_elements_pos hr hcount hs hne)
    have hnone : callsOf s name action = [] := by
      rw [List.eq_nil_iff_forall_not_mem]
      intro c hc
      obtain ⟨-, -, -, hreg⟩ := h.mem_callsOf.1 hc
      obtain ⟨a, hget⟩ := Option.isSome_iff_exists.1 ((h.outer_iff c.key).2 ⟨action, c.cb, c.cb_arg, hreg⟩)
      obtain ⟨p, e, he, -⟩ := hr.get_eq_some.1 hget
      have hmem := hr.mem_order.2 ⟨e, he⟩
      rw [hempty] at hmem
      cases hmem
    rw [hnone]

theorem law_of_small {s : Cbs} (h : CInv s) (hs : Small s) : DispatchLaw s.regs s where
  raise name action ha := by
    exact ⟨callsOf s name action, raise_idle h hs.1 name ha, fun c => h.mem_callsOf, h.callsOf_nodup name action,
      h.callsOf_deep name action⟩
  unregister name mask cb hreg := unregister_idle h hs hreg
  outer := h.outer_iff

theorem registered_concat (ops : List CbOp) (op : CbOp) : registered (ops ++ [op]) = op.apply (registered ops) := by
  rw [registered, List.foldl_append]
  rfl

theorem init_regs (n : Bytes) (a : UInt8) (c : UInt64) : nr_reg_cb_init.regs n a c = none := by
  have hnone : nr_reg_cb_init.table n = none := by
    cases ht : nr_reg_cb_init.table n with
    | none => rfl
    | some t =>
      obtain ⟨a, cs, -, ha, -⟩ := init_cinv.table_some ht
      cases ha
  simp [Cbs.regs, hnone]

/-- The table holds what the history says is registered. -/
theorem run_regs {evs : List (CbOp × Status)} {s : Cbs}
    (hrun : Run cbStep (fun s _ => Small s) nr_reg_cb_init evs s) (hok : ∀ e ∈ evs, e.2 = .ok) :
    s.regs = registered (evs.map (·.1)) := by
  induction hrun with
  | nil =>
    funext n a c
    rw [init_regs]
    rfl
  | snoc hrun hs hst ih =>
    rename_i evs s op r s'
    have hr : r = .ok := hok (op, r) (by simp)
    have ih := ih fun e he => hok e (by simp [he])
    have h := run_cinv hrun
    subst hr
    rw [List.map_append, List.map_cons, List.map_nil, registered_concat, ← ih]
    cases op with
    | register name mask cb cb_arg =>
      obtain ⟨s₁, hreg, -, hregs⟩ := NR_reg_register_spec h name mask cb cb_arg
      rw [show cbStep s (.register name mask cb cb_arg) = some (_, s₁) from hreg] at hst
      simp only [Option.some.injEq, Prod.mk.injEq] at hst
      obtain ⟨hr, rfl⟩ := hst
      rw [hregs, CbOp.apply]
      by_cases hok : refusal name cb = .ok
      · rw [if_pos hok]
      · by_cases hnil : bits mask = []
        · rw [if_neg hok, hnil, setReg_nil]
        · rw [if_neg (not_or.2 ⟨hnil, hok⟩)] at hr
          exact absurd hr hok
    | unregister name mask cb => exact unregister_regs h hs hst

/-- After every sequence of registrations and unregistrations that returned 0,
the table dispatches as the history asks, as long as its counters have not
wrapped on the way. -/
theorem dispatch_law {evs : List (CbOp × Status)} {s : Cbs}
    (hrun : Run cbStep (fun s _ => Small s) nr_reg_cb_init evs s) (hok : ∀ e ∈ evs, e.2 = .ok) (hs : Small s) :
    DispatchLaw (registered (evs.map (·.1))) s := by
  rw [← run_regs hrun hok]
  exact law_of_small (run_cinv hrun) hs

theorem dispatch_law_three_calls :
    ∃ s, Run cbStep (fun s _ => Small s) nr_reg_cb_init [(.register (str "a") 3 8 7, .ok),
        (.register [] 1 9 1, .ok), (.unregister (str "a") 2 8, .ok)] s ∧
      DispatchLaw (registered [.register (str "a") 3 8 7, .register [] 1 9 1, .unregister (str "a") 2 8]) s := by
  have hex : (exec cbStep (fun s _ => decide (Small s)) nr_reg_cb_init
      [.register (str "a") 3 8 7, .register [] 1 9 1, .unregister (str "a") 2 8]).any (fun r =>
        r.1 = [.ok, .ok, .ok] && decide (Small r.2)) = true := by decide +kernel
  obtain ⟨⟨rs, s⟩, hrun, hr⟩ := (Option.any_eq_true _ _).1 hex
  obtain ⟨hrs, hs⟩ := Bool.and_eq_true_iff.1 hr
  obtain rfl : rs = [.ok, .ok, .ok] := by simpa using hrs
  have hrun : Run cbStep (fun s _ => Small s) nr_reg_cb_init _ s :=
    (Run.exec .nil hrun).mono fun _ _ => of_decide_eq_true
  exact ⟨s, hrun, dispatch_law hrun (by simp) (of_decide_eq_true hs)⟩

/-! ## Two to the power of 31 names -/

/-- `n` letters `a` and `b`, the binary digits of `i`. -/
def letters : Nat → Nat → Bytes
  | 0, _ => []
  | n + 1, i => (if i % 2 = 0 then 97 else 98) :: letters n (i / 2)

theorem letters_length (n i : Nat) : (letters n i).length = n := by
  induction n generalizing i with
  | zero => rfl
  | succ n ih => rw [letters, List.length_cons, ih]

theorem letters_inj {n i j : Nat} (hi : i < 2 ^ n) (hj : j < 2 ^ n) (h : letters n i = letters n j) : i = j := by
  induction n generalizing i j with
  | zero => omega
  | succ n ih =>
    rw [letters, letters, List.cons.injEq] at h
    obtain ⟨hbit, hrest⟩ := h
    have hdiv := ih (by omega) (by omega) hrest
    have hmod : i % 2 = j % 2 := by
      by_cases h0 : i % 2 = 0 <;> by_cases h1 : j % 2 = 0 <;> simp_all
    omega

theorem letters_mem {n i : Nat} {c : UInt8} (h : c ∈ letters n i) : c = 97 ∨ c = 98 := by
  induction n generalizing i with
  | zero => cases h
  | succ n ih =>
    rw [letters, List.mem_cons] at h
    rcases h with rfl | h
    · split
      · exact .inl rfl
      · exact .inr rfl
    · exact ih h

theorem dot_notMem_letters (n i : Nat) : dot ∉ letters n i := by
  intro h
  rcases letters_mem h with h | h <;> exact absurd h (by decide)

theorem letters_valid {n : Nat} (hn : n < NR_REG_MAX_NR_REGISTRY_LEN) (i : Nat) : nr_reg_is_valid (letters n i) = .ok := by
  refine is_valid_iff.2 ⟨by rwa [letters_length], fun h => ?_, fun h => ?_, fun c hc => ?_⟩
  · exact dot_notMem_letters n i (List.mem_of_head? h)
  · exact dot_notMem_letters n i (List.mem_of_getLast? h)
  · rcases letters_mem hc with rfl | rfl <;> decide

/-- Register one callback on each of the first `k` names. -/
def manyNames (k : Nat) : List CbOp := (List.range k).map fun i => .register (letters 31 i) NR_REG_CB_ACTION_ADD 1 0

/-- The counter of names after `k` registrations on new names. -/
theorem manyNames_run (k : Nat) (hk : k ≤ 2 ^ 31) :
    ∃ s, Run cbStep (fun _ _ => True) nr_reg_cb_init ((manyNames k).map (·, .ok)) s ∧
      s.nr_registry_callbacks.num_elements = UInt32.ofNat k ∧ ∀ i, k ≤ i → i < 2 ^ 31 → s.table (letters 31 i) = none := by
  induction k with
  | zero =>
    refine ⟨nr_reg_cb_init, .nil, rfl, fun i _ _ => ?_⟩
    cases ht : nr_reg_cb_init.table (letters 31 i) with
    | none => rfl
    | some t =>
      obtain ⟨a, cs, -, ha, -⟩ := init_cinv.table_some ht
      cases ha
  | succ k ih =>
    obtain ⟨s, hrun, hnum, hnone⟩ := ih (by omega)
    obtain ⟨s', hreg, -, -, hoth, hnum'⟩ := register_absent (run_cinv hrun) 0
      (show (1 : UInt64) ≠ 0 by decide) (letters_valid (by decide) k) (show NR_REG_CB_ACTION_ADD ∈ CB_ACTIONS by decide)
      (hnone k (Nat.le_refl k) (by omega))
    refine ⟨s', ?_, ?_, fun i hi hlt => ?_⟩
    · rw [manyNames, List.range_succ, List.map_append, List.map_append]
      refine .snoc hrun trivial ?_
      have hmask : ∀ s, for_actions (fun s a => nr_reg_register_callback s (letters 31 k) a 1 0)
          [NR_REG_CB_ACTION_DELETE, NR_REG_CB_ACTION_CHANGE, NR_REG_CB_ACTION_FINAL] 0 s = some (.ok, s) := fun s => rfl
      rw [cbStep, NR_reg_register_callback, CB_ACTIONS, for_actions, if_pos (by decide), hreg]
      exact hmask s'
    · rw [hnum', hnum]
      simp
    · rw [hoth _ fun he => ?_]
      · exact hnone i (by omega) hlt
      · have := letters_inj hlt (by omega) he
        omega

theorem manyNames_registered {k : Nat} (hk : 0 < k) :
    registered (manyNames k) (letters 31 0) NR_REG_CB_ACTION_ADD 1 = some 0 := by
  induction k with
  | zero => omega
  | succ k ih =>
    rw [manyNames, List.range_succ, List.map_append]
    change registered (manyNames k ++ [_]) _ _ _ = _
    rw [registered_concat, CbOp.apply, setReg]
    split
    · rfl
    · rename_i hne
      refine ih (Nat.pos_of_ne_zero ?_)
      rintro rfl
      exact hne ⟨rfl, by decide, rfl⟩

/-- With a registration on each of 2^31 names the count of names reads as a
negative `int`, and no event is dispatched. -/
theorem dispatch_law_fails_at_many_names :
    ∃ s, Run cbStep (fun _ _ => True) nr_reg_cb_init ((manyNames (2 ^ 31)).map (·, .ok)) s ∧
      nr_reg_raise_event (fun _ => 0) s (letters 31 0) NR_REG_CB_ACTION_ADD = some (.ok, s, []) ∧
      registered (manyNames (2 ^ 31)) (letters 31 0) NR_REG_CB_ACTION_ADD 1 = some 0 ∧
      ¬ DispatchLaw (registered (manyNames (2 ^ 31))) s := by
  obtain ⟨s, hrun, hnum, -⟩ := manyNames_run (2 ^ 31) (Nat.le_refl _)
  have hneg : ¬ 0 < r_assoc_num_elements s.nr_registry_callbacks := by
    rw [r_assoc_num_elements, hnum]
    decide
  have hraise : nr_reg_raise_event (fun _ => 0) s (letters 31 0) NR_REG_CB_ACTION_ADD = some (.ok, s, []) := by
    rw [raise_eq _ (by decide), if_neg hneg]
  have hreg : registered (manyNames (2 ^ 31)) (letters 31 0) NR_REG_CB_ACTION_ADD 1 = some 0 :=
    manyNames_registered (Nat.two_pow_pos 31)
  refine ⟨s, hrun, hraise, hreg, fun law => ?_⟩
  obtain ⟨calls, heq, hmem, -⟩ := law.raise (letters 31 0) NR_REG_CB_ACTION_ADD (by decide)
  rw [hraise] at heq
  cases heq
  exact absurd ((hmem { key := letters 31 0, cb := 1, cb_arg := 0, action := NR_REG_CB_ACTION_ADD,
                        name := letters 31 0 }).2 ⟨.inl rfl, rfl, rfl, hreg⟩) (by simp)

end Nrappkit.Registry
