import Nrappkit.Registry.LocalProgress
/-!
# The names that are announced

Every event is handed to the callbacks on the path of its name, and
`registryd` relays it to its clients as a line of text. `nr_reg_raise_event`
does not look at the name, so it is for each call to raise events for valid
names only. The setters and `nr_reg_local_del` check the name they are given;
`nr_reg_local_fin` does not.
-/
open Lib Nrappkit.Assoc

namespace Nrappkit.Registry

variable {beh : nr_reg_cb_info → UInt8}

def nr_reg_local_fin (beh : nr_reg_cb_info → UInt8) (s : Reg) (name : Bytes) : Option (Status × Reg) :=
  raise_event beh s name NR_REG_CB_ACTION_FINAL

/-! ## The calls a sequence of events makes -/

/-- Raise events one after the other: the callback table they leave, and the
calls they make. -/
def delivers (beh : nr_reg_cb_info → UInt8) : List (Bytes × UInt8) → Cbs → Option (Cbs × List Invocation)
  | [], s => some (s, [])
  | (name, action) :: es, s =>
    match nr_reg_raise_event beh s name action with
    | none => none
    | some (_, s, calls) => (delivers beh es s).map fun r => (r.1, calls ++ r.2)

theorem delivers_append {es es' : List (Bytes × UInt8)} {s s₁ s' : Cbs} {calls calls' : List Invocation}
    (h : delivers beh es s = some (s₁, calls)) (h' : delivers beh es' s₁ = some (s', calls')) :
    delivers beh (es ++ es') s = some (s', calls ++ calls') := by
  induction es generalizing s calls with
  | nil =>
    cases h
    exact h'
  | cons e es ih =>
    rw [delivers] at h
    rw [List.cons_append, delivers]
    split at h
    · cases h
    · rename_i r s₂ calls₁ hr
      obtain ⟨⟨s₃, calls₂⟩, hes, heq⟩ := Option.map_eq_some_iff.1 h
      cases heq
      dsimp only
      rw [ih hes]
      simp

/-- What a call does to the callback table and the record of events: it raises
events for valid names. -/
def Raises (beh : nr_reg_cb_info → UInt8) (s s' : Reg) : Prop :=
  ∃ new calls, s'.events = s.events ++ new ∧ delivers beh new s.cbs = some (s'.cbs, calls) ∧
    ∀ e ∈ new, nr_reg_is_valid e.1 = .ok

theorem Raises.same {s s' : Reg} (hc : s'.cbs = s.cbs) (he : s'.events = s.events) : Raises beh s s' :=
  ⟨[], [], by simp [he], by simp [delivers, hc], by simp⟩

theorem Raises.trans {s s₁ s' : Reg} (h : Raises beh s s₁) (h' : Raises beh s₁ s') : Raises beh s s' := by
  obtain ⟨new, calls, he, hd, hv⟩ := h
  obtain ⟨new', calls', he', hd', hv'⟩ := h'
  refine ⟨new ++ new', calls ++ calls', by rw [he', he, List.append_assoc], delivers_append hd hd', ?_⟩
  intro e hmem
  rcases List.mem_append.1 hmem with hmem | hmem
  · exact hv e hmem
  · exact hv' e hmem

/-- Nodes may have changed before. -/
theorem Raises.after {s s₁ s' : Reg} (h : Raises beh s₁ s') (hc : s₁.cbs = s.cbs) (he : s₁.events = s.events) :
    Raises beh s s' :=
  (Raises.same hc he : Raises beh s s₁).trans h

theorem raise_event_delivers {s s' : Reg} {name : Bytes} {action : UInt8} {r : Status}
    (h : raise_event beh s name action = some (r, s')) :
    ∃ calls, s'.events = s.events ++ [(name, action)] ∧ delivers beh [(name, action)] s.cbs = some (s'.cbs, calls) := by
  obtain ⟨⟨r₁, cbs, calls⟩, hr, heq⟩ := Option.map_eq_some_iff.1 h
  cases heq
  exact ⟨calls ++ [], rfl, by simp [delivers, hr]⟩

theorem raise_event_raises {s s' : Reg} {name : Bytes} {action : UInt8} {r : Status} (hv : nr_reg_is_valid name = .ok)
    (h : raise_event beh s name action = some (r, s')) : Raises beh s s' := by
  obtain ⟨calls, hev, hd⟩ := raise_event_delivers h
  exact ⟨_, calls, hev, hd, by simp [hv]⟩

/-! ## The setters -/

section
variable {set_registry : Reg → Bytes → Option (Status × Reg)}

theorem insert_node_raises (hset : ∀ s name r s', set_registry s name = some (r, s') → Raises beh s s')
    {s s' : Reg} {name : Bytes} {node : Ptr} {r : Status}
    (h : nr_reg_insert_node beh set_registry s name node = some (r, s')) : Raises beh s s' := by
  unfold nr_reg_insert_node at h
  split at h
  · cases h
    exact .same rfl rfl
  · rename_i hv
    split at h
    · cases h
    · rename_i t calls hi
      have hparents : ∀ r₁ s₁, nr_reg_set_parent_registries set_registry { s with nr_registry := t } name = some (r₁, s₁) →
          Raises beh s s₁ := by
        intro r₁ s₁ h₁
        unfold nr_reg_set_parent_registries at h₁
        split at h₁
        · cases h₁
          exact .same rfl rfl
        · exact (hset _ _ _ _ h₁).after rfl rfl
      split at h
      · cases h
      · rename_i s₁ h₁
        exact (hparents _ _ h₁).trans (raise_event_raises (not_not.1 hv) h)
      · rename_i r₁ s₁ _ h₁
        cases h
        exact hparents _ _ h₁
    · cases h
      exact .same rfl rfl

theorem change_node_raises {s s' : Reg} {name : Bytes} {node old : Ptr} {r : Status}
    (h : nr_reg_change_node beh s name node old = some (r, s')) : Raises beh s s' := by
  unfold nr_reg_change_node at h
  split at h
  · cases h
    exact .same rfl rfl
  · rename_i hv
    split at h
    · split at h
      · cases h
      · split at h
        · cases h
        · exact (raise_event_raises (not_not.1 hv) h).after rfl rfl
      · cases h
        exact .same rfl rfl
    · exact raise_event_raises (not_not.1 hv) h

theorem nr_reg_set_raises (hset : ∀ s name r s', set_registry s name = some (r, s') → Raises beh s s')
    {s s' : Reg} {name : Bytes} {data : Option Scalar} {r : Status}
    (h : nr_reg_set beh set_registry s name data = some (r, s')) : Raises beh s s' := by
  unfold nr_reg_set at h
  split at h
  · cases h
  · split at h
    · split at h
      · exact (change_node_raises h).after rfl rfl
      · cases h
        exact .same rfl rfl
    · cases h
      exact .same rfl rfl
  · dsimp only at h
    split at h
    · cases h
    · rename_i s₁ h₁
      cases h
      exact (insert_node_raises hset h₁).after rfl rfl
    · rename_i r₁ s₁ _ h₁
      obtain ⟨nodes, -, heq⟩ := Option.map_eq_some_iff.1 h
      cases heq
      exact ((insert_node_raises hset h₁).after rfl rfl).trans (.same rfl rfl)
  · cases h
    exact .same rfl rfl

theorem set_array_raises (hset : ∀ s name r s', set_registry s name = some (r, s') → Raises beh s s')
    {s s' : Reg} {name : Bytes} {string : Bool} {data : Bytes} {r : Status}
    (h : nr_reg_set_array beh set_registry s name string data = some (r, s')) : Raises beh s s' := by
  unfold nr_reg_set_array at h
  split at h
  · cases h
  · split at h
    · split at h
      · exact (change_node_raises h).after rfl rfl
      · exact (change_node_raises h).after rfl rfl
    · cases h
      exact .same rfl rfl
  · cases h
  · exact (insert_node_raises hset h).after rfl rfl
  · cases h
    exact .same rfl rfl

end

theorem set_registry_raises (n : Nat) : ∀ s name r s', NR_reg_set_registry beh n s name = some (r, s') →
    Raises beh s s' := by
  induction n with
  | zero => exact fun s name r s' h => (by cases h)
  | succ n ih => exact fun s name r s' h => nr_reg_set_raises ih h

theorem set_raises {s s' : Reg} {name : Bytes} {arg : Arg} {r : Status} (h : set beh s name arg = some (r, s')) :
    Raises beh s s' := by
  cases arg with
  | scalar d =>
    rw [set_scalar] at h
    exact nr_reg_set_raises (set_registry_raises _) h
  | registry => exact set_registry_raises _ _ _ _ _ h
  | bytes b => exact set_array_raises (set_registry_raises _) h
  | string b => exact set_array_raises (set_registry_raises _) h

/-! ## Deleting -/

/-- A walk over the names keeps what its action keeps. -/
theorem iter_loop_keeps {α : Type} {action : α → Reg → r_assoc_iterator → Bytes → Ptr → Option (Status × α × Reg)}
    {I : Reg → Prop} (hact : ∀ ptr s iter name node r ptr' s', I s → action ptr s iter name node = some (r, ptr', s') →
      I s') (pfx : Bytes) (n : Nat) {ptr ptr' : α} {s s' : Reg} {iter : r_assoc_iterator} {r : Status} (h : I s)
    (hd : iter_loop action pfx n ptr s iter = some (r, ptr', s')) : I s' := by
  induction n generalizing ptr s iter with
  | zero =>
    unfold iter_loop at hd
    split at hd
    · cases hd
      exact h
    · cases hd
    · contradiction
  | succ n ih =>
    unfold iter_loop at hd
    split at hd
    · cases hd
      exact h
    · contradiction
    · rename_i hn
      cases hn
      split at hd
      · cases hd
      · cases hd
        exact h
      · split at hd
        · cases hd
          exact h
        · split at hd
          · split at hd
            · cases hd
            · rename_i heq
              exact ih (hact _ _ _ _ _ _ _ _ h heq) hd
            · rename_i heq
              cases hd
              exact hact _ _ _ _ _ _ _ _ h heq
          · exact ih h hd

theorem iter_delete_same {s s' : Reg} {pfx : Bytes} {r : Status} {u : Unit}
    (hd : nr_reg_local_iter nr_reg_local_iter_delete pfx () s = some (r, u, s')) :
    s'.cbs = s.cbs ∧ s'.events = s.events := by
  refine iter_loop_keeps (I := fun t => t.cbs = s.cbs ∧ t.events = s.events) ?_ pfx _ ⟨rfl, rfl⟩ hd
  intro _ t iter _ _ r₁ _ t' ht hdel
  unfold nr_reg_local_iter_delete at hdel
  split at hdel
  · cases hdel
  · obtain ⟨nodes, -, heq⟩ := Option.map_eq_some_iff.1 hdel
    cases heq
    exact ht

theorem del_raises {s s' : Reg} {name : Bytes} {r : Status} (h : nr_reg_local_del beh s name = some (r, s')) :
    Raises beh s s' := by
  unfold nr_reg_local_del at h
  split at h
  · cases h
    exact .same rfl rfl
  · rename_i hv
    split at h
    · cases h
    · rename_i u s₁ hdel
      obtain ⟨hc, he⟩ := iter_delete_same hdel
      split at h
      · cases h
      · rename_i s₂ hr
        have hraise := (raise_event_raises (not_not.1 hv) hr).after hc he
        split at h
        · exact hraise.trans (set_registry_raises _ _ _ _ _ h)
        · cases h
          exact hraise
      · rename_i r₂ s₂ _ hr
        cases h
        exact (raise_event_raises (not_not.1 hv) hr).after hc he
    · rename_i r₁ u s₁ _ hdel
      obtain ⟨hc, he⟩ := iter_delete_same hdel
      cases h
      exact .same hc he

/-! ## Every run -/

/-- The calls that raise events, and those on the callback table. -/
inductive PubOp where
  | reg (op : RegOp)
  | fin (name : Bytes)

def pubStep (beh : nr_reg_cb_info → UInt8) (s : Reg) : PubOp → Option (Status × Reg)
  | .reg op => regStep beh s op
  | .fin name => nr_reg_local_fin beh s name

def PubReaches (beh : nr_reg_cb_info → UInt8) (evs : List (PubOp × Status)) (s : Reg) : Prop :=
  ∃ s₀, nr_reg_local_init beh = some (.ok, s₀) ∧ Run (pubStep beh) (fun _ _ => True) s₀ evs s

/-- The calls of callbacks that a step made. -/
def announced (beh : nr_reg_cb_info → UInt8) (s s' : Reg) : List Invocation :=
  ((delivers beh (s'.events.drop s.events.length) s.cbs).map Prod.snd).getD []

theorem announced_eq {s s' : Reg} {new : List (Bytes × UInt8)} {calls : List Invocation}
    (he : s'.events = s.events ++ new) (hd : delivers beh new s.cbs = some (s'.cbs, calls)) :
    announced beh s s' = calls := by
  rw [announced, he, List.drop_left, hd]
  rfl

/-- A dispatch that returns has called what is registered on the path, if the
table was not taken for an empty one. -/
theorem raise_event_calls {s s' : Cbs} (h : CInv s) {name : Bytes} {action : UInt8} (ha : action ∈ CB_ACTIONS)
    {r : Status} {calls : List Invocation} (hr : nr_reg_raise_event beh s name action = some (r, s', calls)) :
    CInv s' ∧ calls = if 0 < r_assoc_num_elements s.nr_registry_callbacks then callsOf s name action else [] := by
  rw [raise_eq beh ha] at hr
  split at hr
  · rename_i hpos
    obtain ⟨hsafe, hleave⟩ := recurse_spec beh name action (name.length + 1) h (Nat.lt_succ_self _)
    by_cases hall : ∀ k ∈ path (name.length + 1) name, safe beh action s k = true
    · obtain ⟨s₁, heq, hleft⟩ := hsafe hall
      rw [hr] at heq
      cases heq
      exact ⟨hleft.inv, by rw [if_pos hpos]; rfl⟩
    · rw [hleave hall] at hr
      cases hr
  · rename_i hpos
    cases hr
    exact ⟨h, by rw [if_neg hpos]⟩

/-- Every call is made with the name of the event. -/
theorem raise_event_names {s s' : Cbs} (h : CInv s) {name : Bytes} {action : UInt8} {r : Status}
    {calls : List Invocation} (hr : nr_reg_raise_event beh s name action = some (r, s', calls)) :
    CInv s' ∧ ∀ c ∈ calls, c.name = name := by
  by_cases ha : action ∈ CB_ACTIONS
  · obtain ⟨hinv, hcalls⟩ := raise_event_calls h ha hr
    refine ⟨hinv, fun c hc => ?_⟩
    rw [hcalls] at hc
    split at hc
    · exact (h.mem_callsOf.1 hc).2.1
    · cases hc
  · simp only [nr_reg_raise_event, nr_reg_validate_action, if_neg ha] at hr
    cases hr
    exact ⟨h, by simp⟩

theorem delivers_names {es : List (Bytes × UInt8)} {s s' : Cbs} {calls : List Invocation} (h : CInv s)
    (hd : delivers beh es s = some (s', calls)) :
    CInv s' ∧ ∀ c ∈ calls, ∃ e ∈ es, c.name = e.1 := by
  induction es generalizing s calls with
  | nil =>
    cases hd
    exact ⟨h, by simp⟩
  | cons e es ih =>
    rw [delivers] at hd
    split at hd
    · cases hd
    · rename_i r s₁ calls₁ hr
      obtain ⟨hinv, hcalls⟩ := raise_event_names h hr
      obtain ⟨⟨s₂, calls₂⟩, hes, heq⟩ := Option.map_eq_some_iff.1 hd
      cases heq
      obtain ⟨hinv', hnames⟩ := ih hinv hes
      refine ⟨hinv', fun c hc => ?_⟩
      rcases List.mem_append.1 hc with hc | hc
      · exact ⟨e, by simp, hcalls c hc⟩
      · obtain ⟨e', he', hn⟩ := hnames c hc
        exact ⟨e', by simp [he'], hn⟩

/-- Events whose callbacks leave the table alone: the calls are those for what
is registered. -/
theorem delivers_idle {s : Cbs} (h : CInv s) (hs : s.nr_registry_callbacks.entries < 2 ^ 31)
    {es : List (Bytes × UInt8)} (ha : ∀ e ∈ es, e.2 ∈ CB_ACTIONS) :
    delivers (fun _ => 0) es s = some (s, es.flatMap fun e => callsOf s e.1 e.2) := by
  induction es with
  | nil => rfl
  | cons e es ih =>
    rw [delivers, raise_idle h hs e.1 (ha e (by simp))]
    dsimp only
    rw [ih fun e he => ha e (by simp [he])]
    rfl

/-- Callbacks that leave the table alone are called with what is registered. -/
theorem raise_event_idle {s s' : Cbs} (h : CInv s) {name : Bytes} {action : UInt8} {r : Status} {calls : List Invocation}
    (hr : nr_reg_raise_event (fun _ => 0) s name action = some (r, s', calls)) :
    s' = s ∧ ∀ c ∈ calls, s.regs c.key action c.cb = some c.cb_arg := by
  by_cases ha : action ∈ CB_ACTIONS
  · rw [raise_eq _ ha] at hr
    split at hr
    · obtain ⟨s₁, heq, hleft⟩ := (recurse_spec (fun _ => 0) name action (name.length + 1) h (Nat.lt_succ_self _)).1
        fun k _ => safeFrom_zero
      rw [heq, hleft.idle fun _ => rfl] at hr
      cases hr
      exact ⟨rfl, fun c hc => (h.mem_callsOf.1 hc).2.2.2⟩
    · cases hr
      exact ⟨rfl, by simp⟩
  · simp only [nr_reg_raise_event, nr_reg_validate_action, if_neg ha] at hr
    cases hr
    exact ⟨rfl, by simp⟩

theorem delivers_registered {s s' : Cbs} (h : CInv s) {es : List (Bytes × UInt8)} {calls : List Invocation}
    (hd : delivers (fun _ => 0) es s = some (s', calls)) :
    s' = s ∧ ∀ c ∈ calls, ∃ action, s.regs c.key action c.cb = some c.cb_arg := by
  induction es generalizing calls with
  | nil =>
    cases hd
    exact ⟨rfl, by simp⟩
  | cons e es ih =>
    rw [delivers] at hd
    split at hd
    · cases hd
    · rename_i r s₁ calls₁ hr
      obtain ⟨rfl, hcalls⟩ := raise_event_idle h hr
      obtain ⟨⟨s₂, calls₂⟩, hes, heq⟩ := Option.map_eq_some_iff.1 hd
      cases heq
      obtain ⟨hsame, hrest⟩ := ih hes
      refine ⟨hsame, fun c hc => ?_⟩
      rcases List.mem_append.1 hc with hc | hc
      · exact ⟨e.2, hcalls c hc⟩
      · exact hrest c hc

theorem Raises.cinv {s s' : Reg} (h : Raises beh s s') (hc : CInv s.cbs) : CInv s'.cbs := by
  obtain ⟨new, calls, -, hd, -⟩ := h
  exact (delivers_names hc hd).1

theorem pubStep_cinv {s s' : Reg} (h : CInv s.cbs) {op : PubOp} {r : Status} (hst : pubStep beh s op = some (r, s')) :
    CInv s'.cbs := by
  cases op with
  | reg op =>
    cases op with
    | set name arg => exact (set_raises hst).cinv h
    | del name => exact (del_raises hst).cinv h
    | callbacks op =>
      obtain ⟨⟨r₁, cbs⟩, hcb, heq⟩ := Option.map_eq_some_iff.1 hst
      cases heq
      obtain ⟨r₂, s₂, heq, hinv⟩ := cbStep_total h op
      rw [hcb] at heq
      cases heq
      exact hinv
  | fin name =>
    obtain ⟨calls, -, hd⟩ := raise_event_delivers hst
    exact (delivers_names h hd).1

theorem PubReaches.cinv {evs : List (PubOp × Status)} {s : Reg} (h : PubReaches beh evs s) : CInv s.cbs := by
  obtain ⟨s₀, hi, hrun⟩ := h
  have h₀ : CInv s₀.cbs := (set_registry_raises _ _ _ _ _ hi).cinv init_cinv
  exact hrun.inv (fun s => CInv s.cbs) h₀ fun _ _ _ _ hs _ hst => pubStep_cinv hs hst

/-- A callback is registered for the action on the path of the name, in a table
that is not taken for an empty one. -/
def Watched (s : Cbs) (name : Bytes) (action : UInt8) : Prop :=
  0 < r_assoc_num_elements s.nr_registry_callbacks ∧ ∃ key cb arg, OnPath key name ∧ s.regs key action cb = some arg

/-- The call is not `nr_reg_local_fin` on a bad name that is watched. -/
def FinChecked (s : Reg) : PubOp → Prop
  | .reg _ => True
  | .fin name => nr_reg_is_valid name = .ok ∨ ¬ Watched s.cbs name NR_REG_CB_ACTION_FINAL

/-- What a step of the registry announces has a valid name. -/
theorem Raises.valid {s s' : Reg} (h : Raises beh s s') (hc : CInv s.cbs) :
    ∀ c ∈ announced beh s s', nr_reg_is_valid c.name = .ok := by
  obtain ⟨new, calls, he, hd, hv⟩ := h
  rw [announced_eq he hd]
  intro c hmem
  obtain ⟨e, hmem', hn⟩ := (delivers_names hc hd).2 c hmem
  rw [hn]
  exact hv e hmem'

theorem mem_announced_fin {s s' : Reg} (h : CInv s.cbs) {name : Bytes} {r : Status}
    (hst : nr_reg_local_fin beh s name = some (r, s')) :
    (∃ c, c ∈ announced beh s s') ↔ Watched s.cbs name NR_REG_CB_ACTION_FINAL := by
  obtain ⟨⟨r₁, cbs, calls⟩, hr, heq⟩ := Option.map_eq_some_iff.1 hst
  cases heq
  have hd : delivers beh [(name, NR_REG_CB_ACTION_FINAL)] s.cbs = some (cbs, calls) := by simp [delivers, hr]
  rw [announced_eq rfl hd, (raise_event_calls h (by decide) hr).2]
  split
  · rename_i hpos
    constructor
    · rintro ⟨c, hc⟩
      obtain ⟨hp, -, -, hreg⟩ := h.mem_callsOf.1 hc
      exact ⟨hpos, c.key, c.cb, c.cb_arg, hp, hreg⟩
    · rintro ⟨-, key, cb, arg, hp, hreg⟩
      exact ⟨⟨key, cb, arg, NR_REG_CB_ACTION_FINAL, name⟩, h.mem_callsOf.2 ⟨hp, rfl, rfl, hreg⟩⟩
  · rename_i hpos
    constructor
    · rintro ⟨c, hc⟩
      cases hc
    · exact fun hw => absurd hw.1 hpos

/-- In every state, a call announces valid names only if and only if it is not
`nr_reg_local_fin` on a bad name that a callback watches. -/
theorem announced_valid_iff {evs : List (PubOp × Status)} {s s' : Reg} (h : PubReaches beh evs s) {op : PubOp}
    {r : Status} (hst : pubStep beh s op = some (r, s')) :
    (∀ c ∈ announced beh s s', nr_reg_is_valid c.name = .ok) ↔ FinChecked s op := by
  have hc := h.cinv
  cases op with
  | reg op =>
    refine iff_of_true ?_ trivial
    cases op with
    | set name arg => exact (set_raises hst).valid hc
    | del name => exact (del_raises hst).valid hc
    | callbacks op =>
      obtain ⟨x, -, heq⟩ := Option.map_eq_some_iff.1 hst
      cases heq
      simp [announced, delivers]
  | fin name =>
    have hname : ∀ c ∈ announced beh s s', c.name = name := by
      obtain ⟨calls, he, hd⟩ := raise_event_delivers hst
      rw [announced_eq he hd]
      intro c hmem
      obtain ⟨e, hmem', hn⟩ := (delivers_names hc hd).2 c hmem
      rw [hn, List.mem_singleton.1 hmem']
    have hwatched := mem_announced_fin hc hst
    constructor
    · intro hall
      by_cases hw : Watched s.cbs name NR_REG_CB_ACTION_FINAL
      · obtain ⟨c, hmem⟩ := hwatched.2 hw
        exact .inl (hname c hmem ▸ hall c hmem)
      · exact .inr hw
    · rintro (hv | hw) c hmem
      · rw [hname c hmem]
        exact hv
      · exact absurd (hwatched.1 ⟨c, hmem⟩) hw

/-- Run a list of calls after `nr_reg_local_init`. -/
def pubTrace (beh : nr_reg_cb_info → UInt8) (ops : List PubOp) : Option (List Status × Reg) :=
  (nr_reg_local_init beh).bind fun x =>
    if x.1 = .ok then exec (pubStep beh) (fun _ _ => true) x.2 ops else none

theorem pubTrace_reaches {ops : List PubOp} {rs : List Status} {s : Reg} (h : pubTrace beh ops = some (rs, s)) :
    PubReaches beh (ops.zip rs) s := by
  obtain ⟨⟨r, s₀⟩, hi, he⟩ := Option.bind_eq_some_iff.1 h
  split at he
  · rename_i hr
    obtain rfl : r = .ok := hr
    exact ⟨s₀, hi, (Run.exec .nil he).mono fun _ _ _ => trivial⟩
  · cases he

/-- A name that holds a line of its own. -/
def forged : Bytes := str "a\n\rdelete b"

/-- A callback on the root is called with a name that is not valid. -/
theorem announced_forged :
    ∃ evs s s', PubReaches (fun _ => 0) evs s ∧ nr_reg_local_fin (fun _ => 0) s forged = some (.ok, s') ∧
      ∃ c ∈ announced (fun _ => 0) s s', c.name = forged ∧ nr_reg_is_valid c.name = .R_BAD_ARGS := by
  have hex : (pubTrace (fun _ => 0) [.reg (.callbacks (.register [] 64 8 0))]).any (fun x =>
      (nr_reg_local_fin (fun _ => 0) x.2 forged).any fun y => y.1 = .ok &&
        (announced (fun _ => 0) x.2 y.2).any fun c => c.name = forged) = true := by decide +kernel
  obtain ⟨⟨rs, s⟩, htr, hx⟩ := (Option.any_eq_true _ _).1 hex
  obtain ⟨⟨r, s'⟩, hfin, hy⟩ := (Option.any_eq_true _ _).1 hx
  obtain ⟨hr, hcalls⟩ := Bool.and_eq_true_iff.1 hy
  obtain ⟨c, hc, hn⟩ := List.any_eq_true.1 hcalls
  obtain rfl : r = .ok := of_decide_eq_true hr
  have hn : c.name = forged := of_decide_eq_true hn
  refine ⟨_, s, s', pubTrace_reaches htr, hfin, c, hc, hn, ?_⟩
  rw [hn]
  decide

theorem announced_valid_deletion :
    ∃ evs s s', PubReaches (fun _ => 0) evs s ∧ pubStep (fun _ => 0) s (.reg (.del (str "a"))) = some (.ok, s') ∧
      announced (fun _ => 0) s s' ≠ [] ∧ ∀ c ∈ announced (fun _ => 0) s s', nr_reg_is_valid c.name = .ok := by
  have hex : (pubTrace (fun _ => 0) [.reg (.callbacks (.register [] 71 8 0)), .reg (.set (str "a.b") (.bytes [1]))]).any
      (fun x => (pubStep (fun _ => 0) x.2 (.reg (.del (str "a")))).any fun y => y.1 = .ok &&
        announced (fun _ => 0) x.2 y.2 ≠ []) = true := by decide +kernel
  obtain ⟨⟨rs, s⟩, htr, hx⟩ := (Option.any_eq_true _ _).1 hex
  obtain ⟨⟨r, s'⟩, hst, hy⟩ := (Option.any_eq_true _ _).1 hx
  obtain ⟨hr, hcalls⟩ := Bool.and_eq_true_iff.1 hy
  obtain rfl : r = .ok := of_decide_eq_true hr
  have hreach := pubTrace_reaches htr
  exact ⟨_, s, s', hreach, hst, of_decide_eq_true hcalls, (announced_valid_iff hreach hst).2 trivial⟩

end Nrappkit.Registry
