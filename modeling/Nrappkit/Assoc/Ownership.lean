import Nrappkit.Assoc.Theorems
import Nrappkit.Lib.Ledger
/-!
# Who destroys a datum

The machine of the table, with a record of the data it was given, those it took
(their insert returned 0) and the destructor calls it made. Every datum comes
with its destroy function and is given once. The table owns what it took until
it destroys it: `Ledger` is the invariant, over the entries that the keys have.
-/
open Lib DLink

namespace Nrappkit.Assoc

variable {δ : Type}

/-- The destructor call that an entry will get. -/
def ownedOf (x : δ × Option FnPtr × Option FnPtr) : Option (FnPtr × δ) := x.2.2.map (·, x.1)

/-- What the table will destroy for a key. -/
def r_assoc.held (t : r_assoc δ) (key : Bytes) : Option (FnPtr × δ) := (t.entry key).bind ownedOf

/-- The destructor calls of an operation. -/
def destroyCalls (s : St δ) : Op δ → List (FnPtr × δ)
  | .insert key data copy destroy how =>
    ((r_assoc_insert s.assoc key data copy destroy how).map (·.2.2)).getD []
  | .delete key => ((r_assoc_delete s.assoc key).map (·.2.2)).getD []
  | .iter_delete => ((r_assoc_iter_delete s.assoc s.iterator).map (·.2)).getD []
  | .fetch _ | .init_iter | .iter => []

/-- The datum that an insert gives to the table, with its function. -/
def Op.given : Op δ → List (FnPtr × δ)
  | .insert _ data _ destroy _ => destroy.toList.map (·, data)
  | .delete _ | .fetch _ | .init_iter | .iter | .iter_delete => []

/-- The call returned 0. -/
def Ret.isOk : Ret δ → Bool
  | .status .ok => true
  | _ => false

structure Life (δ : Type) where
  s : St δ
  given : List (FnPtr × δ)
  taken : List (FnPtr × δ)
  destroyed : List (FnPtr × δ)

def Life.start (hash_func : Bytes → Nat → Nat) (bits : Nat) : Life δ := ⟨Assoc.start hash_func bits, [], [], []⟩

def lifeStep (w : Life δ) (op : Op δ) : Option (Ret δ × Life δ) :=
  (step w.s op).map fun r => (r.1,
    { s := r.2
      given := op.given ++ w.given
      taken := if r.1.isOk then op.given ++ w.taken else w.taken
      destroyed := w.destroyed ++ destroyCalls w.s op })

/-- An insert gives a datum of its own, with a destroy function. -/
def Op.Distinct (given : List (FnPtr × δ)) : Op δ → Prop
  | .insert _ data _ destroy _ => destroy.isSome = true ∧ data ∉ given.map (·.2)
  | .delete _ | .fetch _ | .init_iter | .iter | .iter_delete => True

/-! ## What a call does to the entries -/

/-- A call leaves the entries alone, or clears one, or sets one; what was there
is destroyed. -/
def Effect (s s' : St δ) (op : Op δ) (r : Ret δ) : Prop :=
  match op with
  | .insert key data copy destroy _ =>
    (r.isOk = false ∧ s'.assoc.entry = s.assoc.entry ∧ destroyCalls s op = []) ∨
      (r.isOk = true ∧ s'.assoc.entry = Function.update s.assoc.entry key (some (data, copy, destroy)) ∧
        destroyCalls s op = (s.assoc.held key).toList)
  | .delete _ | .iter_delete => ∃ key, s'.assoc.entry = Function.update s.assoc.entry key none ∧
      destroyCalls s op = (s.assoc.held key).toList
  | .fetch _ | .init_iter | .iter => s'.assoc.entry = s.assoc.entry

theorem destroyOf_eq (x : δ × Option FnPtr × Option FnPtr) : destroyOf x = (ownedOf x).toList := by
  obtain ⟨d, copy, destroy⟩ := x
  cases destroy <;> rfl

theorem effect_insert {s s' : St δ} {cs : Nat → List Ptr} (h : Rep s.assoc cs) {key : Bytes} {data : δ}
    {copy destroy : Option FnPtr} {how : How} {r : Ret δ} (hst : step s (.insert key data copy destroy how) = some (r, s')) :
    Effect s s' (.insert key data copy destroy how) r := by
  cases hent : s.assoc.entry key with
  | none =>
    obtain ⟨t', cs', hi, -, he, -⟩ := h.insert_absent hent data copy destroy how
    simp only [step, hi, Option.map_some, Option.some.injEq, Prod.mk.injEq] at hst
    obtain ⟨rfl, rfl⟩ := hst
    exact .inr ⟨rfl, he, by simp [destroyCalls, hi, r_assoc.held, hent]⟩
  | some x =>
    cases how with
    | R_ASSOC_NEW =>
      have hi := h.insert_already hent data copy destroy
      simp only [step, hi, Option.map_some, Option.some.injEq, Prod.mk.injEq] at hst
      obtain ⟨rfl, rfl⟩ := hst
      exact .inl ⟨rfl, rfl, by simp [destroyCalls, hi]⟩
    | R_ASSOC_REPLACE =>
      obtain ⟨t', hi, -, he, -⟩ := h.insert_replace hent data copy destroy
      simp only [step, hi, Option.map_some, Option.some.injEq, Prod.mk.injEq] at hst
      obtain ⟨rfl, rfl⟩ := hst
      exact .inr ⟨rfl, he, by simp [destroyCalls, hi, r_assoc.held, hent, destroyOf_eq]⟩

theorem effect_delete {s s' : St δ} {cs : Nat → List Ptr} (h : Rep s.assoc cs) {key : Bytes} {r : Ret δ}
    (hst : step s (.delete key) = some (r, s')) : Effect s s' (.delete key) r := by
  cases hent : s.assoc.entry key with
  | none =>
    have hd := h.delete_absent hent
    simp only [step, hd, Option.map_some, Option.some.injEq, Prod.mk.injEq] at hst
    obtain ⟨rfl, rfl⟩ := hst
    exact ⟨key, by rw [← hent, Function.update_eq_self], by simp [destroyCalls, hd, r_assoc.held, hent]⟩
  | some x =>
    obtain ⟨t', a, e, -, -, hd, -, he, -⟩ := h.delete_present hent
    simp only [step, hd, Option.map_some, Option.some.injEq, Prod.mk.injEq] at hst
    obtain ⟨rfl, rfl⟩ := hst
    exact ⟨key, he, by simp [destroyCalls, hd, r_assoc.held, hent, destroyOf_eq]⟩

theorem effect_iter_delete {s s' : St δ} {a : Abs δ} {cs : Nat → List Ptr} (h : Sim s a cs) (hl : legal s .iter_delete)
    {r : Ret δ} (hst : step s .iter_delete = some (r, s')) : Effect s s' .iter_delete r := by
  obtain ⟨p, e, t', -, he, hdel, -, hent, -⟩ := h.iter_delete hl
  simp only [step, hdel, Option.map_some, Option.some.injEq, Prod.mk.injEq] at hst
  obtain ⟨rfl, rfl⟩ := hst
  have hentry : s.assoc.entry e.key = some (e.data, e.copy, e.destroy) := h.rep.entry_eq_some.2 ⟨p, e, he, rfl⟩
  refine ⟨e.key, hent, ?_⟩
  rw [destroyCalls, hdel, r_assoc.held, hentry]
  exact destroyOf_eq (e.data, e.copy, e.destroy)

theorem effect_step {s s' : St δ} {a : Abs δ} {cs : Nat → List Ptr} (h : Sim s a cs) {op : Op δ} (hl : legal s op)
    {r : Ret δ} (hst : step s op = some (r, s')) : Effect s s' op r := by
  cases op with
  | insert key data copy destroy how => exact effect_insert h.rep hst
  | delete key => exact effect_delete h.rep hst
  | iter_delete => exact effect_iter_delete h hl hst
  | fetch key =>
    simp only [step, Option.map_eq_some_iff] at hst
    obtain ⟨x, -, hx⟩ := hst
    cases x <;> cases hx <;> rfl
  | init_iter =>
    cases hst
    rfl
  | iter =>
    simp only [step, Option.map_eq_some_iff] at hst
    obtain ⟨x, -, hx⟩ := hst
    cases x <;> cases hx <;> rfl

/-! ## The invariant -/

/-- What the table holds is what it took and did not destroy. -/
structure Owns (w : Life δ) : Prop where
  ledger : Ledger w.s.assoc.held w.taken w.destroyed
  given : w.taken ⊆ w.given
  distinct : (w.given.map (·.2)).Nodup
  destroy : ∀ key x, w.s.assoc.entry key = some x → (ownedOf x).isSome = true

theorem held_update {t t' : r_assoc δ} {key : Bytes} {x : Option (δ × Option FnPtr × Option FnPtr)}
    (h : t'.entry = Function.update t.entry key x) : t'.held = Function.update t.held key (x.bind ownedOf) := by
  funext k
  by_cases hk : k = key
  · subst hk
    rw [r_assoc.held, h, Function.update_self, Function.update_self]
  · rw [r_assoc.held, h, Function.update_of_ne hk, Function.update_of_ne hk, r_assoc.held]

/-- Clearing a key gives up what was held there, if anything was. -/
theorem clear_held {t : r_assoc δ} {taken gone : List (FnPtr × δ)} (h : Ledger t.held taken gone) (key : Bytes) :
    Ledger (Function.update t.held key none) taken (gone ++ (t.held key).toList) := by
  cases hk : t.held key with
  | none =>
    rw [← hk, Function.update_eq_self, hk, Option.toList_none, List.append_nil]
    exact h
  | some i => exact h.drop hk

theorem destroy_update {t t' : r_assoc δ} {key : Bytes} {x : Option (δ × Option FnPtr × Option FnPtr)}
    (h : ∀ k y, t.entry k = some y → (ownedOf y).isSome = true) (he : t'.entry = Function.update t.entry key x)
    (hx : ∀ y, x = some y → (ownedOf y).isSome = true) : ∀ k y, t'.entry k = some y → (ownedOf y).isSome = true := by
  intro k y hk
  rw [he] at hk
  by_cases hkk : k = key
  · subst hkk
    rw [Function.update_self] at hk
    exact hx y hk
  · rw [Function.update_of_ne hkk] at hk
    exact h k y hk

theorem Owns.create (hash_func : Bytes → Nat → Nat) (bits : Nat) (hh : ∀ k, hash_func k bits < 2 ^ bits) :
    Owns (Life.start hash_func bits : Life δ) := by
  have hnone : ∀ k, (r_assoc_create hash_func bits : r_assoc δ).entry k = none := fun k =>
    (create_rep (δ := δ) hash_func bits hh).entry_eq_none.2 fun a e he => by cases he
  have hheld : (r_assoc_create hash_func bits : r_assoc δ).held = fun _ => none := by
    funext k
    rw [r_assoc.held, hnone]
    rfl
  refine ⟨?_, List.nil_subset _, List.nodup_nil, fun key x hx => ?_⟩
  · show Ledger (r_assoc_create hash_func bits : r_assoc δ).held [] []
    rw [hheld]
    exact .empty
  · cases (hnone key).symm.trans hx

/-- A call that gives nothing and clears at most one key. -/
theorem Owns.cleared {w w' : Life δ} (ho : Owns w) (hgiven : w'.given = w.given) (htaken : w'.taken = w.taken) {key : Bytes}
    (he : w'.s.assoc.entry = Function.update w.s.assoc.entry key none)
    (hc : w'.destroyed = w.destroyed ++ (w.s.assoc.held key).toList) : Owns w' := by
  refine ⟨?_, by rw [hgiven, htaken]; exact ho.given, by rw [hgiven]; exact ho.distinct,
    destroy_update ho.destroy he fun y hy => by cases hy⟩
  rw [held_update he, htaken, hc]
  exact clear_held ho.ledger key

theorem Owns.read {w w' : Life δ} (ho : Owns w) (hgiven : w'.given = w.given) (htaken : w'.taken = w.taken)
    (he : w'.s.assoc.entry = w.s.assoc.entry) (hc : w'.destroyed = w.destroyed) : Owns w' := by
  have hheld : w'.s.assoc.held = w.s.assoc.held := by
    funext k
    rw [r_assoc.held, he, r_assoc.held]
  exact ⟨by rw [hheld, htaken, hc]; exact ho.ledger, by rw [hgiven, htaken]; exact ho.given,
    by rw [hgiven]; exact ho.distinct, by rw [he]; exact ho.destroy⟩

theorem Owns.step {w w' : Life δ} {a : Abs δ} {cs : Nat → List Ptr} (ho : Owns w) (h : Sim w.s a cs) {op : Op δ}
    (hl : legal w.s op) (hd : op.Distinct w.given) {r : Ret δ} (hst : lifeStep w op = some (r, w')) : Owns w' := by
  simp only [lifeStep, Option.map_eq_some_iff, Prod.mk.injEq] at hst
  obtain ⟨⟨r', s'⟩, hst, rfl, rfl⟩ := hst
  have heff := effect_step h hl hst
  cases op with
  | insert key data copy destroy how =>
    obtain ⟨hsome, hnew⟩ := hd
    obtain ⟨f, rfl⟩ := Option.isSome_iff_exists.1 hsome
    have hgiven : (Op.insert key data copy (some f) how).given = [(f, data)] := rfl
    have hdistinct : (((f, data) :: w.given).map (·.2)).Nodup := List.nodup_cons.2 ⟨hnew, ho.distinct⟩
    rcases heff with ⟨hr, he, hc⟩ | ⟨hr, he, hc⟩
    · -- refused: nothing is taken and nothing destroyed
      have hheld : s'.assoc.held = w.s.assoc.held := by
        funext k
        rw [r_assoc.held, he, r_assoc.held]
      refine ⟨?_, ?_, by rwa [hgiven], fun k y hk => ho.destroy k y (by rw [← he]; exact hk)⟩
      · show Ledger s'.assoc.held (if r'.isOk then _ else w.taken) (w.destroyed ++ destroyCalls w.s _)
        rw [hheld, hr, hc, List.append_nil]
        exact ho.ledger
      · show (if r'.isOk then _ else w.taken) ⊆ _
        rw [hr, hgiven]
        exact fun x hx => List.mem_cons_of_mem _ (ho.given hx)
    · have hfresh : (f, data) ∉ w.taken := fun hmem => hnew (List.mem_map_of_mem (f := (·.2)) (ho.given hmem))
      have hadd := (clear_held ho.ledger key).add (Function.update_self key none w.s.assoc.held) hfresh
      rw [Function.update_idem] at hadd
      refine ⟨?_, ?_, by rwa [hgiven], destroy_update ho.destroy he fun y hy => by cases hy; rfl⟩
      · show Ledger s'.assoc.held (if r'.isOk then _ else w.taken) (w.destroyed ++ destroyCalls w.s _)
        rw [held_update he, hr, hc, hgiven]
        exact hadd
      · show (if r'.isOk then _ else w.taken) ⊆ _
        rw [hr, hgiven]
        exact List.cons_subset_cons _ ho.given
  | delete key =>
    obtain ⟨k, he, hc⟩ := heff
    exact ho.cleared rfl (ite_self _) he (congrArg (w.destroyed ++ ·) hc)
  | iter_delete =>
    obtain ⟨k, he, hc⟩ := heff
    exact ho.cleared rfl (ite_self _) he (congrArg (w.destroyed ++ ·) hc)
  | fetch key => exact ho.read rfl (ite_self _) heff (List.append_nil _)
  | init_iter => exact ho.read rfl (ite_self _) heff (List.append_nil _)
  | iter => exact ho.read rfl (ite_self _) heff (List.append_nil _)

/-! ## Every run -/

/-- The destructor calls of a table, in the order of its elements. -/
theorem destroy_held {t : r_assoc δ} {cs : Nat → List Ptr} (h : Rep t cs)
    (hinj : ∀ k k' i, t.held k = some i → t.held k' = some i → k = k') :
    ∃ calls, r_assoc_destroy t = some calls ∧ calls.Nodup ∧ ∀ i, i ∈ calls ↔ ∃ k, t.held k = some i := by
  have hcall : ∀ {p e}, t.heap p = some e → t.held e.key = e.destroy.map (·, e.data) := by
    intro p e he
    rw [r_assoc.held, h.entry_eq_some.2 ⟨p, e, he, rfl⟩]
    rfl
  have hmem : ∀ p i, i ∈ ((t.heap p).map r_assoc_el.destroyCall).getD [] ↔
      ∃ e, t.heap p = some e ∧ t.held e.key = some i := by
    intro p i
    cases he : t.heap p with
    | none => simp
    | some e =>
      rw [Option.map_some, Option.getD_some, r_assoc_el.destroyCall]
      constructor
      · intro hi
        refine ⟨e, rfl, ?_⟩
        rw [hcall he]
        cases hd : e.destroy with
        | none =>
          rw [hd] at hi
          cases hi
        | some f =>
          rw [hd] at hi
          rw [List.mem_singleton.1 hi]
          rfl
      · rintro ⟨e', he', hi⟩
        cases he'
        rw [hcall he] at hi
        cases hd : e.destroy with
        | none =>
          rw [hd] at hi
          cases hi
        | some f =>
          rw [hd] at hi
          cases hi
          exact List.mem_singleton_self _
  refine ⟨_, h.destroy_eq, ?_, fun i => ?_⟩
  · rw [List.nodup_flatMap]
    refine ⟨fun p _ => ?_, h.nodup_order.imp_of_mem fun {p q} _ _ hpq => ?_⟩
    · cases t.heap p with
      | none => exact List.nodup_nil
      | some e =>
        rw [Option.map_some, Option.getD_some, r_assoc_el.destroyCall]
        cases e.destroy with
        | none => exact List.nodup_nil
        | some f => exact List.nodup_singleton _
    · refine List.disjoint_left.2 fun i hp hq => ?_
      obtain ⟨e, he, hi⟩ := (hmem p i).1 hp
      obtain ⟨e', he', hi'⟩ := (hmem q i).1 hq
      exact hpq (h.keys p q e e' he he' (hinj _ _ i hi hi'))
  · rw [List.mem_flatMap]
    constructor
    · rintro ⟨p, -, hi⟩
      obtain ⟨e, -, hheld⟩ := (hmem p i).1 hi
      exact ⟨e.key, hheld⟩
    · rintro ⟨k, hk⟩
      cases hent : t.entry k with
      | none =>
        rw [r_assoc.held, hent] at hk
        cases hk
      | some x =>
        obtain ⟨p, e, he, hbe⟩ := h.entry_eq_some.1 hent
        have hkey : e.key = k := congrArg Prod.fst hbe
        exact ⟨p, h.mem_order.2 ⟨e, he⟩, (hmem p i).2 ⟨e, he, by rw [hkey, hk]⟩⟩

/-- The data that the table took are destroyed once: `calls` are the destructor
calls so far. -/
structure DestroyedOnce (w : Life δ) : Prop where
  /-- No datum is destroyed twice, and none that was not taken. -/
  once : (w.destroyed.map (·.2)).Nodup ∧ w.destroyed ⊆ w.taken
  /-- A datum is destroyed when no fetch returns it any more. -/
  moment : ∀ c ∈ w.taken, c ∈ w.destroyed ↔ ∀ key, r_assoc_fetch w.s.assoc key ≠ some (.ok c.2)
  /-- Destroying the table destroys the others. -/
  final : ∃ calls, r_assoc_destroy w.s.assoc = some calls ∧ ((w.destroyed ++ calls).map (·.2)).Nodup ∧
    ∀ c, c ∈ w.destroyed ++ calls ↔ c ∈ w.taken
  /-- A datum that was refused is none of these. -/
  refused : ∀ c ∈ w.given, c ∉ w.taken → ∀ c' ∈ w.taken, c'.2 ≠ c.2

/-- A datum tells which item it is. -/
theorem Owns.eq_of_datum {w : Life δ} (ho : Owns w) {c c' : FnPtr × δ} (hc : c ∈ w.given) (hc' : c' ∈ w.given)
    (h : c.2 = c'.2) : c = c' := List.inj_on_of_nodup_map ho.distinct hc hc' h

/-- An item is held where a fetch returns its datum. -/
theorem Owns.held_iff_fetch {w : Life δ} {cs : Nat → List Ptr} (ho : Owns w) (h : Rep w.s.assoc cs) {c : FnPtr × δ}
    (hc : c ∈ w.taken) (key : Bytes) : w.s.assoc.held key = some c ↔ r_assoc_fetch w.s.assoc key = some (.ok c.2) := by
  rw [h.fetch_eq]
  cases hent : w.s.assoc.entry key with
  | none => simp [r_assoc.held, r_assoc.get, hent]
  | some x =>
    obtain ⟨c', hc'⟩ := Option.isSome_iff_exists.1 (ho.destroy key x hent)
    have hheld : w.s.assoc.held key = some c' := by rw [r_assoc.held, hent, Option.bind_some, hc']
    have hdatum : c'.2 = x.1 := by
      obtain ⟨f, -, rfl⟩ := Option.map_eq_some_iff.1 hc'
      rfl
    rw [hheld, r_assoc.get, hent, Option.map_some, ← hdatum]
    constructor
    · intro heq
      cases heq
      rfl
    · intro heq
      simp only [Option.some.injEq, Except.ok.injEq] at heq
      rw [ho.eq_of_datum (ho.given (ho.ledger.held_taken key c' hheld)) (ho.given hc) heq]

theorem Owns.destroyedOnce {w : Life δ} {cs : Nat → List Ptr} (ho : Owns w) (h : Rep w.s.assoc cs) : DestroyedOnce w where
  once := by
    refine ⟨ho.ledger.gone_once.map_on fun c hc c' hc' => ?_, ho.ledger.gone_taken⟩
    exact ho.eq_of_datum (ho.given (ho.ledger.gone_taken hc)) (ho.given (ho.ledger.gone_taken hc'))
  moment := by
    intro c hc
    rw [ho.ledger.gone_iff hc]
    exact forall_congr' fun key => not_congr (ho.held_iff_fetch h hc key)
  final := by
    obtain ⟨calls, hcalls, hn, hmem⟩ := destroy_held h ho.ledger.held_once
    obtain ⟨hall, hiff⟩ := ho.ledger.finish hn hmem
    refine ⟨calls, hcalls, hall.map_on fun c hc c' hc' => ?_, hiff⟩
    exact ho.eq_of_datum (ho.given ((hiff c).1 hc)) (ho.given ((hiff c').1 hc'))
  refused := by
    intro c hc hnot c' hc' heq
    exact hnot (ho.eq_of_datum (ho.given hc') hc heq ▸ hc')

/-- In every run with data of their own, a datum that an insert took is
destroyed once: when it is replaced, deleted, or with the table. -/
theorem destroyed_once (hash_func : Bytes → Nat → Nat) (bits : Nat) (hh : ∀ k, hash_func k bits < 2 ^ bits)
    {evs : List (Op δ × Ret δ)} {w : Life δ}
    (hrun : Run lifeStep (fun w op => legal w.s op = true ∧ op.Distinct w.given) (Life.start hash_func bits) evs w) :
    DestroyedOnce w := by
  obtain ⟨⟨a, cs, hsim⟩, ho⟩ := hrun.inv (fun w => (∃ a cs, Sim w.s a cs) ∧ Owns w)
    ⟨⟨_, _, sim_start hash_func bits hh⟩, Owns.create hash_func bits hh⟩ (by
      rintro w op r w' ⟨⟨a, cs, hsim⟩, ho⟩ ⟨hl, hd⟩ hst
      refine ⟨?_, ho.step hsim hl hd hst⟩
      obtain ⟨r₁, s₁, a', cs', hst₁, -, hsim'⟩ := sim_step hsim op hl
      simp only [lifeStep, hst₁, Option.map_some, Option.some.injEq, Prod.mk.injEq] at hst
      obtain ⟨-, rfl⟩ := hst
      exact ⟨a', cs', hsim'⟩)
  exact ho.destroyedOnce hsim.rep

/-- One datum is replaced, one is refused, and one is deleted. -/
theorem destroyed_once_three :
    ∃ w : Life Nat, DestroyedOnce w ∧ w.taken = [(7, 30), (7, 20), (7, 10)] ∧ w.destroyed = [(7, 10), (7, 20)] := by
  have h0 : Run lifeStep (fun w op => legal w.s op = true ∧ op.Distinct w.given)
      (Life.start (fun _ _ => 0) 0 : Life Nat) [] (Life.start (fun _ _ => 0) 0) := .nil
  have h1 := h0.snoc (i := Op.insert [1] 10 none (some 7) .R_ASSOC_NEW) ⟨rfl, rfl, by decide⟩ rfl
  have h2 := h1.snoc (i := Op.insert [1] 20 none (some 7) .R_ASSOC_REPLACE) ⟨rfl, rfl, by decide⟩ rfl
  have h3 := h2.snoc (i := Op.insert [1] 25 none (some 7) .R_ASSOC_NEW) ⟨rfl, rfl, by decide⟩ rfl
  have h4 := h3.snoc (i := Op.insert [2] 30 none (some 7) .R_ASSOC_NEW) ⟨rfl, rfl, by decide⟩ rfl
  have h5 := h4.snoc (i := Op.delete [1]) ⟨rfl, trivial⟩ rfl
  exact ⟨_, destroyed_once _ _ (by simp) h5, rfl, rfl⟩

end Nrappkit.Assoc
