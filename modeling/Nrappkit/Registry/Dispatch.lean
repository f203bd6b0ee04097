import Nrappkit.Registry.CallbackInvariants
/-!
# What a dispatch does

A callback may drop registrations of its own while the loop over its inner
table runs. The loop holds the address of the next element already, so it
stays inside the table exactly when that element is not one of those dropped
and the table itself is still there; `safe` says so of the table as it was
before the event.
-/
open Lib Nrappkit.Assoc

namespace Nrappkit.Registry

/-! ## Unregistering a mask of actions -/

/-- The infos left in an inner table after `cb` is unregistered for each action
of the list; `none` when the table is destroyed on the way, which is when its
`UINT4` counter reads zero. -/
def survivors (cb : UInt64) : List UInt8 → List nr_reg_cb_info → Option (List nr_reg_cb_info)
  | [], xs => some xs
  | b :: l, xs =>
    let xs := xs.filter fun x => !ofActions cb [b] x
    if xs.length % 2 ^ 32 = 0 then none else survivors cb l xs

theorem ofActions_cons (cb : UInt64) (b : UInt8) (l : List UInt8) (x : nr_reg_cb_info) :
    ofActions cb (b :: l) x = (ofActions cb [b] x || ofActions cb l x) := by
  by_cases hc : x.cb = cb <;> simp [ofActions, hc]

theorem survivors_eq {cb : UInt64} {l : List UInt8} {xs ys : List nr_reg_cb_info} (h : survivors cb l xs = some ys) :
    ys = xs.filter fun x => !ofActions cb l x := by
  induction l generalizing xs with
  | nil =>
    cases h
    simp [ofActions]
  | cons b l ih =>
    rw [survivors] at h
    split at h
    · cases h
    · rw [ih h, List.filter_filter]
      refine List.filter_congr fun x _ => ?_
      rw [ofActions_cons cb b l x, Bool.not_or, Bool.and_comm]

/-- The info block of an element. -/
def infoAt (t : r_assoc nr_reg_cb_info) (p : Ptr) : Option nr_reg_cb_info := (t.heap p).map (·.data)

theorem keeps_eq {t : r_assoc nr_reg_cb_info} {p : Ptr} {x : nr_reg_cb_info} (hx : infoAt t p = some x)
    (cb : UInt64) (l : List UInt8) : keeps t cb l p = !ofActions cb l x := by
  obtain ⟨e, he, rfl⟩ := Option.map_eq_some_iff.1 hx
  simp [keeps, he]

theorem infoAt_some {t : r_assoc nr_reg_cb_info} {cs : Nat → List Ptr} (h : Rep t cs) {p : Ptr}
    (hp : p ∈ order t cs) : ∃ x, infoAt t p = some x := by
  obtain ⟨e, he⟩ := h.mem_order.1 hp
  exact ⟨e.data, by simp [infoAt, he]⟩

theorem infos_length {t : r_assoc nr_reg_cb_info} {l : List Ptr} (hl : ∀ q ∈ l, ∃ y, infoAt t q = some y) :
    (l.filterMap (infoAt t)).length = l.length := by
  induction l with
  | nil => rfl
  | cons q l ih =>
    obtain ⟨y, hy⟩ := hl q (by simp)
    rw [List.filterMap_cons_some hy, List.length_cons, List.length_cons, ih fun p hp => hl p (by simp [hp])]

/-- The infos of the elements kept, in a table that has kept them. -/
theorem infos_filter {t t₁ : r_assoc nr_reg_cb_info} {cb : UInt64} {as : List UInt8} {l : List Ptr}
    (hinfo : ∀ q, keeps t cb as q = true → infoAt t₁ q = infoAt t q) (hl : ∀ q ∈ l, ∃ y, infoAt t q = some y) :
    (l.filter (keeps t cb as)).filterMap (infoAt t₁) =
      (l.filterMap (infoAt t)).filter fun x => !ofActions cb as x := by
  induction l with
  | nil => rfl
  | cons q l ih =>
    obtain ⟨z, hz⟩ := hl q (by simp)
    have ih := ih fun q' hq' => hl q' (by simp [hq'])
    have hkd := keeps_eq hz cb as
    rw [List.filterMap_cons_some hz]
    cases hk : keeps t cb as q with
    | false => rw [List.filter_cons_of_neg (by simp [hk]), List.filter_cons_of_neg (by simp [← hkd, hk]), ih]
    | true =>
      rw [List.filter_cons_of_pos hk, List.filter_cons_of_pos (by rw [← hkd, hk]),
        List.filterMap_cons_some ((hinfo q hk).trans hz), ih]

namespace Alive
variable {name : Bytes} {a : Ptr} {t t' : r_assoc nr_reg_cb_info} {cs : Nat → List Ptr} {s' : Cbs} {cb : UInt64}
  {l : List UInt8}

theorem info {keep : Ptr → Bool} (h : Alive name a t cs keep s' t') {p : Ptr} (hp : keep p = true) :
    infoAt t' p = infoAt t p := by
  have := congrArg (Option.map fun b => b.2.1) (h.body p hp)
  rwa [Option.map_map, Option.map_map] at this

theorem elements (h : Alive name a t cs (keeps t cb l) s' t') (hr : Rep t cs) :
    t'.elements = t.elements.filter fun x => !ofActions cb l x := by
  rw [h.holds.inner.rep.elements_eq, hr.elements_eq, order_filter h.hash.size]
  exact infos_filter (fun q hq => h.info hq) fun q hq => infoAt_some hr hq

/-- Removing the registrations for one action and then those for others. -/
theorem cons {b : UInt8} {s₁ : Cbs} {t₁ : r_assoc nr_reg_cb_info} (h₁ : Alive name a t cs (keeps t cb [b]) s₁ t₁)
    (h : Alive name a t₁ (fun j => (cs j).filter (keeps t cb [b])) (keeps t₁ cb l) s' t') :
    Alive name a t cs (keeps t cb (b :: l)) s' t' := by
  have hk : ∀ p, keeps t cb (b :: l) p = (keeps t₁ cb l p && keeps t cb [b] p) := by
    intro p
    cases hx : infoAt t p with
    | none =>
      have hnone : t.heap p = none := Option.map_eq_none_iff.1 hx
      have hkeep : ∀ l, keeps t cb l p = true := fun l => by simp [keeps, hnone]
      have hnone₁ := h₁.info (hkeep [b])
      rw [hx] at hnone₁
      rw [hkeep, hkeep]
      simp [keeps, Option.map_eq_none_iff.1 hnone₁]
    | some x =>
      rw [keeps_eq hx, keeps_eq hx, ofActions_cons]
      cases hb : ofActions cb [b] x with
      | true => simp
      | false =>
        have hx₁ := h₁.info (show keeps t cb [b] p = true by rw [keeps_eq hx, hb]; rfl)
        rw [hx] at hx₁
        simp [keeps_eq hx₁]
  refine ⟨?_, h₁.hash.trans h.hash, fun p hp => ?_⟩
  · simpa only [List.filter_filter, ← hk] using h.holds
  · rw [hk, Bool.and_eq_true] at hp
    exact (h.body p hp.1).trans (h₁.body p hp.2)

end Alive

theorem each_unregister_absent {s : Cbs} (h : CInv s) {name : Bytes} {cb : UInt64} (hcb : cb ≠ 0)
    (hv : nr_reg_is_valid name = .ok) {l : List UInt8} (hl : ∀ a ∈ l, a ∈ CB_ACTIONS) (ht : s.table name = none) :
    each (fun s a => nr_reg_unregister_callback s name a cb) l s = some (.ok, s) := by
  induction l with
  | nil => rfl
  | cons a l ih =>
    rw [each, unregister_absent h hcb hv (hl a (by simp)) ht]
    exact ih fun b hb => hl b (by simp [hb])

/-- The registrations of `cb` for the actions of `l` go away; the other names
keep theirs. -/
theorem each_unregister {s : Cbs} (h : CInv s) {name : Bytes} {cb : UInt64} (hcb : cb ≠ 0)
    (hv : nr_reg_is_valid name = .ok) {l : List UInt8} (hl : ∀ a ∈ l, a ∈ CB_ACTIONS)
    {a : Ptr} {t : r_assoc nr_reg_cb_info} {cs : Nat → List Ptr} (ht : Holds s name a t cs) :
    ∃ s', each (fun s a => nr_reg_unregister_callback s name a cb) l s = some (.ok, s') ∧ CInv s' ∧
      (∀ n ≠ name, s'.table n = s.table n) ∧
      if survivors cb l t.elements = none then Dead name a s' else ∃ t', Alive name a t cs (keeps t cb l) s' t' := by
  induction l generalizing s t cs with
  | nil =>
    refine ⟨s, rfl, h, fun _ _ => rfl, ?_⟩
    have hall : keeps t cb [] = fun _ => true := by
      funext p
      cases he : t.heap p <;> simp [keeps, ofActions, he]
    rw [survivors, if_neg (by simp), hall]
    exact ⟨t, ⟨ht.entry, ht.assoc, by simpa using ht.inner⟩, ⟨rfl, rfl⟩, fun _ _ => rfl⟩
  | cons b l ih =>
    have hl' : ∀ a ∈ l, a ∈ CB_ACTIONS := fun a ha => hl a (by simp [ha])
    obtain ⟨s₁, hun, hinv₁, hoth₁, hcase⟩ := unregister_spec h hcb hv (hl b (by simp)) ht
    have hlen : ((order t cs).filter (keeps t cb [b])).length =
        (t.elements.filter fun x => !ofActions cb [b] x).length := by
      have hlive : ∀ q ∈ order t cs, ∃ y, infoAt t q = some y := fun q hq => infoAt_some ht.inner.rep hq
      have hel : (t.elements.filter fun x => !ofActions cb [b] x) =
          ((order t cs).filter (keeps t cb [b])).filterMap (infoAt t) := by
        rw [infos_filter (fun _ _ => rfl) hlive, ht.inner.rep.elements_eq]
        rfl
      rw [hel, infos_length fun q hq => hlive q (List.mem_filter.1 hq).1]
    rw [each, hun, survivors, ← hlen]
    by_cases h0 : ((order t cs).filter (keeps t cb [b])).length % 2 ^ 32 = 0
    · rw [if_pos h0] at hcase
      refine ⟨s₁, each_unregister_absent hinv₁ hcb hv hl' hcase.table, hinv₁, hoth₁, ?_⟩
      rw [if_pos h0, if_pos rfl]
      exact hcase
    · rw [if_neg h0] at hcase
      obtain ⟨t₁, halive⟩ := hcase.1
      obtain ⟨s', heach, hinv, hoth, hrest⟩ := ih hinv₁ hl' halive.holds
      rw [halive.elements ht.inner.rep] at hrest
      refine ⟨s', heach, hinv, fun n hn => (hoth n hn).trans (hoth₁ n hn), ?_⟩
      rw [if_neg h0]
      split
      · rw [if_pos ‹_›] at hrest
        exact hrest
      · rw [if_neg ‹_›] at hrest
        obtain ⟨t', halive'⟩ := hrest
        exact ⟨t', halive.cons halive'⟩

/-- What the loop over `CB_ACTIONS` adds to `each`. -/
theorem NR_reg_unregister_eq (s : Cbs) (name : Bytes) (mask : UInt8) (cb : UInt64) :
    NR_reg_unregister_callback s name mask cb =
      (each (fun s a => nr_reg_unregister_callback s name a cb) (bits mask) s).map fun r =>
        (if r.1 = .ok then maskStatus mask else r.1, r.2) :=
  for_actions_bits _ mask s

/-! ## The condition on the table -/

/-- Walking `xs` in a table that holds the infos `table`: when an info is
called and another one follows it in the walk, that one is still in the table
after the callback has unregistered what it unregisters. -/
def safeFrom (beh : nr_reg_cb_info → UInt8) (action : UInt8) : List nr_reg_cb_info → List nr_reg_cb_info → Bool
  | _, [] => true
  | table, x :: xs =>
    if x ∉ table then safeFrom beh action table xs
    else if x.action = action then
      match xs.find? (· ∈ table), survivors x.cb (bits (beh x)) table with
      | none, _ => true
      | some _, none => false
      | some y, some table' => decide (y ∈ table') && safeFrom beh action table' xs
    else safeFrom beh action table xs

/-- The registrations of a name, in the order its inner table is walked. -/
def Cbs.infos (s : Cbs) (name : Bytes) : List nr_reg_cb_info := ((s.table name).map r_assoc.elements).getD []

/-- The dispatch of `action` on `name` stays inside the inner table. -/
def safe (beh : nr_reg_cb_info → UInt8) (action : UInt8) (s : Cbs) (name : Bytes) : Bool :=
  safeFrom beh action (s.infos name) (s.infos name)

/-- The call made for an info block. -/
def nr_reg_cb_info.invoke (name : Bytes) (action : UInt8) (info : nr_reg_cb_info) : Invocation :=
  { key := info.name, cb := info.cb, cb_arg := info.cb_arg, action, name }

/-! ## The loop over an inner table -/

section
variable {beh : nr_reg_cb_info → UInt8} {name : Bytes} {action : UInt8} {a : Ptr} {n : Nat} {s : Cbs}
  {iter iter' : r_assoc_iterator}

theorem invoke_loop_end (h : iter.next = none) : invoke_loop beh name action a n s iter = some (s, []) := by
  unfold invoke_loop
  rw [h]

/-- Walking to an element that was released, or into a table that was. -/
theorem invoke_loop_stuck {p : Ptr} (h : iter.next = some p) (hs : ∀ t, s.assocs a = some t → t.heap p = none) :
    invoke_loop beh name action a n s iter = none := by
  unfold invoke_loop
  rw [h]
  cases n with
  | zero => rfl
  | succ n =>
    cases ht : s.assocs a with
    | none => rfl
    | some t => simp [r_assoc_iter, h, hs t ht]

theorem invoke_loop_step {p : Ptr} {t : r_assoc nr_reg_cb_info} {k : Bytes} {info : nr_reg_cb_info}
    (h : iter.next = some p) (ht : s.assocs a = some t) (hit : r_assoc_iter t iter = some (.ok ((k, info), iter'))) :
    invoke_loop beh name action a (n + 1) s iter =
      if info.action = action then
        (NR_reg_unregister_callback s info.name (beh info) info.cb).bind fun r =>
          (invoke_loop beh name action a n r.2 iter').map fun r => (r.1, info.invoke name action :: r.2)
      else invoke_loop beh name action a n s iter' := by
  conv_lhs => unfold invoke_loop
  rw [h]
  simp only [ht, hit]
  split
  · cases NR_reg_unregister_callback s info.name (beh info) info.cb <;> rfl
  · rfl

end

theorem NR_reg_unregister_zero (s : Cbs) (name : Bytes) (cb : UInt64) :
    NR_reg_unregister_callback s name 0 cb = some (.ok, s) := by
  simp [NR_reg_unregister_callback, for_actions, CB_ACTIONS]

/-- What a dispatch guarantees of the state it leaves. -/
structure Left (beh : nr_reg_cb_info → UInt8) (keys : Bytes → Prop) (s s' : Cbs) : Prop where
  inv : CInv s'
  other : ∀ n, ¬ keys n → s'.table n = s.table n
  idle : (∀ x, beh x = 0) → s' = s

theorem Left.trans {beh : nr_reg_cb_info → UInt8} {keys keys' : Bytes → Prop} {s s₁ s' : Cbs}
    (h : Left beh keys s s₁) (h' : Left beh keys' s₁ s') : Left beh (fun n => keys n ∨ keys' n) s s' where
  inv := h'.inv
  other n hn := (h'.other n fun hk => hn (.inr hk)).trans (h.other n fun hk => hn (.inl hk))
  idle h0 := (h'.idle h0).trans (h.idle h0)

/-- What the callback of `y` leaves of the inner table it is registered in. -/
theorem invoke_callback (beh : nr_reg_cb_info → UInt8) {key : Bytes} {a : Ptr} (hv : nr_reg_is_valid key = .ok)
    {s : Cbs} {t : r_assoc nr_reg_cb_info} {cs : Nat → List Ptr} {y : nr_reg_cb_info} (h : CInv s)
    (ht : Holds s key a t cs) (hcb : y.cb ≠ 0) :
    ∃ r s₁, NR_reg_unregister_callback s key (beh y) y.cb = some (r, s₁) ∧ Left beh (· = key) s s₁ ∧
      if survivors y.cb (bits (beh y)) t.elements = none then Dead key a s₁
      else ∃ t₁, Alive key a t cs (keeps t y.cb (bits (beh y))) s₁ t₁ := by
  obtain ⟨s₁, heach, hinv, hoth, hcase⟩ := each_unregister h hcb hv (fun a => mem_bits) (l := bits (beh y)) ht
  have hun := NR_reg_unregister_eq s key (beh y) y.cb
  rw [heach, Option.map_some] at hun
  refine ⟨_, s₁, hun, ⟨hinv, hoth, fun h0 => ?_⟩, hcase⟩
  rw [h0 y, NR_reg_unregister_zero] at hun
  cases hun
  rfl

section
variable {xs table table₁ : List nr_reg_cb_info} {y : nr_reg_cb_info} {l : List UInt8}

/-- What is left to walk when the callback of `y` has dropped some actions. -/
theorem filter_survivors (hmem : ∀ x, x ∈ table₁ ↔ x ∈ table ∧ ofActions y.cb l x = false) :
    xs.filter (· ∈ table₁) = (xs.filter (· ∈ table)).filter fun x => !ofActions y.cb l x := by
  rw [List.filter_filter]
  apply List.filter_congr
  intro x _
  rw [Bool.eq_iff_iff]
  simp [hmem, and_comm]

/-- Another registration for the action of `y` belongs to another callback, so
the calls that are left stay. -/
theorem calls_survive (hmem : ∀ x, x ∈ table₁ ↔ x ∈ table ∧ ofActions y.cb l x = false)
    (hd : ∀ x ∈ xs, ¬ (y.cb = x.cb ∧ y.action = x.action)) :
    (xs.filter (· ∈ table₁)).filter (·.action = y.action) = (xs.filter (· ∈ table)).filter (·.action = y.action) := by
  rw [filter_survivors hmem, List.filter_filter]
  apply List.filter_congr
  intro x hx
  by_cases hxa : x.action = y.action
  · have hcbne : ¬ x.cb = y.cb := fun hc => hd x (List.mem_filter.1 hx).1 ⟨hc.symm, hxa.symm⟩
    simp [ofActions, hcbne]
  · simp [hxa]

end

/-- What an unregistration leaves of the infos. -/
theorem Alive.mem_elements {s' : Cbs} {key : Bytes} {a : Ptr} {t t₁ : r_assoc nr_reg_cb_info} {cs : Nat → List Ptr}
    {cb : UInt64} {l : List UInt8} (h : Alive key a t cs (keeps t cb l) s' t₁) (hr : Rep t cs) (x : nr_reg_cb_info) :
    x ∈ t₁.elements ↔ x ∈ t.elements ∧ ofActions cb l x = false := by
  rw [h.elements hr, List.mem_filter, Bool.not_eq_true']

/-- An element whose info was unregistered was released. -/
theorem Alive.gone {s' : Cbs} {key : Bytes} {a : Ptr} {t t₁ : r_assoc nr_reg_cb_info} {cs : Nat → List Ptr} {cb : UInt64}
    {l : List UInt8} (h : Alive key a t cs (keeps t cb l) s' t₁) (hr : Rep t cs) {q : Ptr} {z : nr_reg_cb_info}
    (hz : infoAt t q = some z) (hzt : z ∈ t.elements) (hzk : z ∉ t₁.elements) : t₁.heap q = none := by
  cases hq : t₁.heap q with
  | none => rfl
  | some e =>
    have hqm := h.holds.inner.rep.mem_order.2 ⟨e, hq⟩
    rw [order_filter h.hash.size, List.mem_filter, keeps_eq hz] at hqm
    exact absurd ((h.mem_elements hr z).2 ⟨hzt, by simpa using hqm.2⟩) hzk

/-- A walk that stands before an element that stays goes on in the table that is
left, over the elements and infos that are. -/
theorem Alive.walk {s' : Cbs} {key : Bytes} {a : Ptr} {t t₁ : r_assoc nr_reg_cb_info} {cs : Nat → List Ptr}
    {y : nr_reg_cb_info} {l : List UInt8} (h : Alive key a t cs (keeps t y.cb l) s' t₁) (hr : Rep t cs) {pre rest : List Ptr} {q : Ptr}
    {z : nr_reg_cb_info} {xs : List nr_reg_cb_info} {iter : r_assoc_iterator} (ho : order t cs = pre ++ q :: rest)
    (hat : At cs iter (q :: rest)) (hz : infoAt t q = some z) (hzk : z ∈ t₁.elements)
    (hxs : (q :: rest).filterMap (infoAt t) = xs.filter (· ∈ t.elements)) :
    order t₁ (fun j => (cs j).filter (keeps t y.cb l)) =
        pre.filter (keeps t y.cb l) ++ (q :: rest).filter (keeps t y.cb l) ∧
      At (fun j => (cs j).filter (keeps t y.cb l)) iter ((q :: rest).filter (keeps t y.cb l)) ∧
      ((q :: rest).filter (keeps t y.cb l)).filterMap (infoAt t₁) = xs.filter (· ∈ t₁.elements) := by
  have hmem := h.mem_elements hr
  have hlive : ∀ p ∈ q :: rest, ∃ w, infoAt t p = some w := fun p hp =>
    infoAt_some hr (by rw [ho]; exact List.mem_append_right _ hp)
  refine ⟨?_, hat.filter fun p hp => ?_, ?_⟩
  · rw [order_filter h.hash.size, ho, List.filter_append]
  · rw [hat.1] at hp
    cases hp
    rw [keeps_eq hz, ((hmem z).1 hzk).2]
    rfl
  · rw [infos_filter (fun p hp => h.info hp) hlive, hxs]
    exact (filter_survivors hmem).symm

/-- The loop, started with `rest` left to walk: it calls what is registered for
the action when the walk is safe, and leaves the table when it is not. The
induction is on the infos `xs` that were left when the walk began. -/
theorem invoke_loop_spec (beh : nr_reg_cb_info → UInt8) (name : Bytes) (action : UInt8) {key : Bytes} {a : Ptr}
    (hv : nr_reg_is_valid key = .ok) (xs : List nr_reg_cb_info) {n : Nat} {s : Cbs}
    {t : r_assoc nr_reg_cb_info} {cs : Nat → List Ptr} {pre rest : List Ptr} {iter : r_assoc_iterator}
    (h : CInv s) (ht : Holds s key a t cs) (ho : order t cs = pre ++ rest)
    (hat : At cs iter rest) (hn : rest.length ≤ n)
    (hxs : rest.filterMap (infoAt t) = xs.filter (· ∈ t.elements))
    (hd : xs.Pairwise fun x y => ¬ (x.cb = y.cb ∧ x.action = y.action)) :
    (safeFrom beh action t.elements xs = true → ∃ s', invoke_loop beh name action a n s iter =
        some (s', ((xs.filter (· ∈ t.elements)).filter (·.action = action)).map (·.invoke name action)) ∧
        Left beh (· = key) s s') ∧
      (safeFrom beh action t.elements xs = false → invoke_loop beh name action a n s iter = none) := by
  induction xs generalizing n s t cs pre rest iter with
  | nil =>
    have hrest : rest = [] := by
      cases rest with
      | nil => rfl
      | cons p rest =>
        obtain ⟨y, hy⟩ := infoAt_some ht.inner.rep (show p ∈ order t cs by rw [ho]; simp)
        simp [hy] at hxs
    subst hrest
    exact ⟨fun _ => ⟨s, invoke_loop_end hat.1, h, fun _ _ => rfl, fun _ => rfl⟩, fun hf => by simp [safeFrom] at hf⟩
  | cons x xs ih =>
    obtain ⟨hdx, hdxs⟩ := List.pairwise_cons.1 hd
    rw [safeFrom]
    by_cases hg : x ∉ t.elements
    · rw [if_pos hg, List.filter_cons_of_neg (by simpa using hg)]
      rw [List.filter_cons_of_neg (by simpa using hg)] at hxs
      exact ih h ht ho hat hn hxs hdxs
    rw [if_neg hg]
    rw [not_not] at hg
    rw [List.filter_cons_of_pos (by simpa using hg)] at hxs ⊢
    cases rest with
    | nil => cases hxs
    | cons p rest =>
    obtain ⟨e, iter', he, hit, -, -, hat'⟩ := ht.inner.rep.iter_step ho hat
    have hp : infoAt t p = some e.data := by simp [infoAt, he]
    rw [List.filterMap_cons_some hp, List.cons.injEq] at hxs
    obtain ⟨rfl, hxs⟩ := hxs
    obtain ⟨n, rfl, hn'⟩ := fuel_cons hn
    obtain ⟨-, hname, -, -, hcb⟩ := ht.inner.info e.key _ (ht.inner.rep.entry_eq_some.2 ⟨p, e, he, rfl⟩)
    rw [invoke_loop_step hat.1 ht.assoc hit]
    have hlive : ∀ q ∈ rest, ∃ y, infoAt t q = some y := fun q hq =>
      infoAt_some ht.inner.rep (show q ∈ order t cs by rw [ho]; simp [hq])
    have ho' : order t cs = (pre ++ [p]) ++ rest := by simpa using ho
    by_cases hact : e.data.action = action
    · rw [if_pos hact, if_pos hact, List.filter_cons_of_pos (by simpa using hact), List.map_cons]
      obtain ⟨r, s₁, hun, hleft, hcase⟩ := invoke_callback beh hv h ht hcb
      rw [hname, hun, Option.bind_some, ← List.head?_filter, ← hxs]
      cases rest with
      | nil => exact ⟨fun _ => ⟨s₁, by rw [invoke_loop_end hat'.1]; rfl, hleft⟩, fun hf => by cases hf⟩
      | cons q rest =>
      obtain ⟨z, hz⟩ := hlive q (by simp)
      rw [List.filterMap_cons_some hz, List.head?_cons]
      cases hsv : survivors e.data.cb (bits (beh e.data)) t.elements with
      | none =>
        rw [hsv, if_pos rfl] at hcase
        refine ⟨(by cases ·), fun _ => ?_⟩
        rw [invoke_loop_stuck hat'.1 fun t' ht' => ?_, Option.map_none]
        rw [hcase.assoc] at ht'
        cases ht'
      | some table' =>
        rw [hsv, if_neg (by simp)] at hcase
        obtain ⟨t₁, halive⟩ := hcase
        have htab : table' = t₁.elements := by rw [survivors_eq hsv, halive.elements ht.inner.rep]
        have hzt : z ∈ t.elements := by
          rw [ht.inner.rep.elements_eq]
          exact List.mem_filterMap.2 ⟨q, by rw [ho]; simp, hz⟩
        rw [htab]
        dsimp only
        by_cases hzk : z ∈ t₁.elements
        · have hcalls := calls_survive (halive.mem_elements ht.inner.rep) hdx
          rw [hact] at hcalls
          obtain ⟨hord, hat₁, hinfos⟩ := halive.walk ht.inner.rep ho' hat' hz hzk hxs
          obtain ⟨hsafe, hleave⟩ := ih hleft.inv halive.holds hord hat₁
            (Nat.le_trans (List.length_filter_le _ _) hn') hinfos hdxs
          rw [decide_eq_true hzk, Bool.true_and, ← List.filterMap_cons_some hz, hxs, ← hcalls]
          constructor
          · intro hsf
            obtain ⟨s', hloop, hleft'⟩ := hsafe hsf
            refine ⟨s', by rw [hloop]; rfl, ?_⟩
            simpa only [or_self] using hleft.trans hleft'
          · intro hsf
            rw [hleave hsf]
            rfl
        · rw [decide_eq_false hzk, Bool.false_and]
          refine ⟨(by cases ·), fun _ => ?_⟩
          rw [invoke_loop_stuck hat'.1 fun t' ht' => ?_, Option.map_none]
          rw [halive.holds.assoc] at ht'
          cases ht'
          exact halive.gone ht.inner.rep hz hzt hzk
    · rw [if_neg hact, if_neg hact, List.filter_cons_of_neg (by simp [hact])]
      exact ih h ht ho' hat' hn' hxs hdxs

/-! ## The walk up the path -/

/-- The calls made for the registrations of `key`. -/
def callsOn (s : Cbs) (name : Bytes) (action : UInt8) (key : Bytes) : List Invocation :=
  ((s.infos key).filter (·.action = action)).map (·.invoke name action)

/-- Within a table, a callback is registered once for an action. -/
theorem InnerOk.pairwise {name : Bytes} {t : r_assoc nr_reg_cb_info} {cs : Nat → List Ptr} (h : InnerOk name t cs) :
    t.elements.Pairwise fun x y => ¬ (x.cb = y.cb ∧ x.action = y.action) := by
  rw [h.rep.elements_eq, List.pairwise_filterMap]
  refine h.rep.nodup_order.imp ?_
  intro p q hpq x hx y hy hxy
  obtain ⟨e, he, rfl⟩ := Option.map_eq_some_iff.1 hx
  obtain ⟨e', he', rfl⟩ := Option.map_eq_some_iff.1 hy
  obtain ⟨-, -, hk, -⟩ := h.info e.key _ (h.rep.entry_eq_some.2 ⟨p, e, he, rfl⟩)
  obtain ⟨-, -, hk', -⟩ := h.info e'.key _ (h.rep.entry_eq_some.2 ⟨q, e', he', rfl⟩)
  refine hpq (h.rep.keys p q e e' he he' ?_)
  rw [hk, hk', compute_cb_id_inj]
  exact hxy

theorem invoke_on_spec (beh : nr_reg_cb_info → UInt8) (name : Bytes) (action : UInt8) {s : Cbs} (h : CInv s)
    (tmp : Bytes) :
    (safe beh action s tmp = true → ∃ s', invoke_on beh name action tmp s =
        some (.ok, s', callsOn s name action tmp) ∧ Left beh (· = tmp) s s') ∧
      (safe beh action s tmp = false → invoke_on beh name action tmp s = none) := by
  cases ht : s.table tmp with
  | none =>
    have hinfos : s.infos tmp = [] := by rw [Cbs.infos, ht]; rfl
    rw [safe, callsOn, hinfos]
    refine ⟨fun _ => ⟨s, ?_, h, fun _ _ => rfl, fun _ => rfl⟩, fun hf => by simp [safeFrom] at hf⟩
    simp [invoke_on, h.fetch_none ht]
  | some t =>
    obtain ⟨a, cs, hx, hst, -, hv, hin⟩ := h.table_some ht
    have hinfos : s.infos tmp = t.elements := by rw [Cbs.infos, ht]; rfl
    have hall : t.elements.filter (· ∈ t.elements) = t.elements := by simp
    have hloop := invoke_loop_spec beh name action hv t.elements h ⟨hx, hst, hin⟩
      (List.nil_append _).symm hin.rep.init_iter hin.rep.order_length_le (by rw [hall, hin.rep.elements_eq]; rfl)
      hin.pairwise
    rw [hall] at hloop
    rw [safe, callsOn, hinfos]
    refine ⟨fun hsf => ?_, fun hsf => ?_⟩
    · obtain ⟨s', hl, hleft⟩ := hloop.1 hsf
      exact ⟨s', by simp [invoke_on, h.fetch_some hx, hst, hl], hleft⟩
    · simp [invoke_on, h.fetch_some hx, hst, hloop.2 hsf]

theorem Left.infos {beh : nr_reg_cb_info → UInt8} {keys : Bytes → Prop} {s s' : Cbs} (h : Left beh keys s s')
    {n : Bytes} (hn : ¬ keys n) : s'.infos n = s.infos n := by
  rw [Cbs.infos, Cbs.infos, h.other n hn]

/-- The recursion visits the path, and stays inside every table of it or
leaves one. -/
theorem recurse_spec (beh : nr_reg_cb_info → UInt8) (name : Bytes) (action : UInt8) (n : Nat) {tmp : Bytes} {s : Cbs}
    (h : CInv s) (hn : tmp.length < n) :
    ((∀ k ∈ path n tmp, safe beh action s k = true) → ∃ s', nr_reg_raise_event_recurse beh name action n tmp s =
        some (.ok, s', (path n tmp).flatMap (callsOn s name action)) ∧ Left beh (· ∈ path n tmp) s s') ∧
      (¬ (∀ k ∈ path n tmp, safe beh action s k = true) →
        nr_reg_raise_event_recurse beh name action n tmp s = none) := by
  induction n generalizing tmp s with
  | zero => omega
  | succ n ih =>
    obtain ⟨hon, hoff⟩ := invoke_on_spec beh name action h tmp
    have hnd := path_nodup hn
    rw [path] at hnd ⊢
    rw [nr_reg_raise_event_recurse]
    cases hsf : safe beh action s tmp with
    | false =>
      rw [hoff hsf]
      refine ⟨fun hall => ?_, fun _ => rfl⟩
      have := hall tmp (by simp)
      rw [hsf] at this
      cases this
    | true =>
    obtain ⟨s₁, honeq, hleft⟩ := hon hsf
    rw [honeq]
    dsimp only
    by_cases ht : tmp = []
    · rw [if_pos ht]
      subst ht
      refine ⟨fun _ => ⟨s₁, by simp, by simpa using hleft⟩, fun hne => absurd ?_ hne⟩
      simpa using hsf
    · rw [if_neg ht] at hnd ⊢
      have hlt : ((beforeLastDot tmp).getD []).length < n := by
        have hpos : 0 < tmp.length := List.length_pos_iff.2 ht
        cases hp : beforeLastDot tmp with
        | none => simp; omega
        | some p =>
          have := beforeLastDot_length hp
          simp; omega
      have hinfos : ∀ k ∈ path n ((beforeLastDot tmp).getD []), s₁.infos k = s.infos k := by
        intro k hk
        refine hleft.infos ?_
        rintro rfl
        exact (List.nodup_cons.1 hnd).1 hk
      obtain ⟨hrec, hrec'⟩ := ih hleft.inv hlt
      have hsafe : (∀ k ∈ path n ((beforeLastDot tmp).getD []), safe beh action s₁ k = true) ↔
          ∀ k ∈ path n ((beforeLastDot tmp).getD []), safe beh action s k = true := by
        refine forall₂_congr fun k hk => ?_
        rw [safe, safe, hinfos k hk]
      rw [if_neg ht, List.forall_mem_cons, List.flatMap_cons]
      refine ⟨fun hall => ?_, fun hne => ?_⟩
      · obtain ⟨s', heq, hleft'⟩ := hrec (hsafe.2 hall.2)
        refine ⟨s', ?_, by simpa only [List.mem_cons] using hleft.trans hleft'⟩
        rw [heq, Option.map_some, List.flatMap_congr fun k hk => ?_]
        rw [callsOn, callsOn, hinfos k hk]
      · rw [hrec' fun hall => hne ⟨hsf, hsafe.1 hall⟩]
        rfl

end Nrappkit.Registry
