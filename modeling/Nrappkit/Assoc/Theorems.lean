import Nrappkit.Assoc.Map
import Nrappkit.Lib.Runs
/-!
# Theorems about `r_assoc`

The machine is a table with one iterator; its inputs are the calls of
`r_assoc.h`. A call through the iterator is allowed while the element it is
about to touch has not been released. `Spec` is what the table is for: a map
from byte strings to data, and the key an iterator returned last.
-/
open Lib DLink

namespace Nrappkit.Assoc

variable {δ : Type}

/-! ## The machine -/

inductive Op (δ : Type) where
  | insert (key : Bytes) (data : δ) (copy destroy : Option FnPtr) (how : How)
  | delete (key : Bytes)
  | fetch (key : Bytes)
  | init_iter
  | iter
  | iter_delete

inductive Ret (δ : Type) where
  | status (s : Status)
  | datum (d : δ)
  | element (key : Bytes) (d : δ)

structure St (δ : Type) where
  assoc : r_assoc δ
  iterator : r_assoc_iterator

def start (hash_func : Bytes → Nat → Nat) (bits : Nat) : St δ :=
  let assoc := r_assoc_create hash_func bits
  ⟨assoc, r_assoc_init_iter assoc⟩

def step (s : St δ) : Op δ → Option (Ret δ × St δ)
  | .insert key data copy destroy how =>
    (r_assoc_insert s.assoc key data copy destroy how).map fun r => (.status r.1, { s with assoc := r.2.1 })
  | .delete key => (r_assoc_delete s.assoc key).map fun r => (.status r.1, { s with assoc := r.2.1 })
  | .fetch key => (r_assoc_fetch s.assoc key).map fun
    | .ok d => (.datum d, s)
    | .error e => (.status e, s)
  | .init_iter => some (.status .ok, { s with iterator := r_assoc_init_iter s.assoc })
  | .iter => (r_assoc_iter s.assoc s.iterator).map fun
    | .ok ((k, d), it) => (.element k d, { s with iterator := it })
    | .error e => (.status e, s)
  | .iter_delete => (r_assoc_iter_delete s.assoc s.iterator).map fun r => (.status .ok, { s with assoc := r.1 })

/-- An iterator may be advanced while the element it saved is allocated, and
may delete the element it returned while that one is. -/
def legal (s : St δ) : Op δ → Bool
  | .iter => s.iterator.next.all fun p => (s.assoc.heap p).isSome
  | .iter_delete => s.iterator.prev.any fun p => (s.assoc.heap p).isSome
  | _ => true

/-! ## The finite map -/

/-- A map, and the key of the element an iterator returned last. -/
structure Abs (δ : Type) where
  map : Bytes → Option δ
  last : Option Bytes

/-- What each call does to the map and returns. -/
def Spec (a : Abs δ) (op : Op δ) (r : Ret δ) (a' : Abs δ) : Prop :=
  match op with
  | .insert key d _ _ how =>
    if (a.map key).isSome ∧ how = .R_ASSOC_NEW then r = .status .R_ALREADY ∧ a' = a
    else r = .status .ok ∧ a' = { a with map := Function.update a.map key (some d) }
  | .delete key =>
    if (a.map key).isSome then r = .status .ok ∧ a' = { a with map := Function.update a.map key none }
    else r = .status .R_NOT_FOUND ∧ a' = a
  | .fetch key => a' = a ∧ match a.map key with
    | some d => r = .datum d
    | none => r = .status .R_NOT_FOUND
  | .init_iter => r = .status .ok ∧ a' = { a with last := none }
  | .iter => (r = .status .R_EOD ∧ a' = a) ∨
      ∃ k d, a.map k = some d ∧ r = .element k d ∧ a' = { a with last := some k }
  | .iter_delete => ∃ k, a.last = some k ∧ (a.map k).isSome ∧ r = .status .ok ∧
      a' = { a with map := Function.update a.map k none }

/-! ## Every call simulates the map -/

/-- The iterator's two elements are where it says, unless they were released,
and no address they hold can be handed out again. -/
structure IterOk (s : St δ) (cs : Nat → List Ptr) : Prop where
  next : ∀ p, s.iterator.next = some p → p < s.assoc.brk ∧ ∀ e, s.assoc.heap p = some e → p ∈ cs s.iterator.next_chain
  prev : ∀ p, s.iterator.prev = some p →
    p < s.assoc.brk ∧ ∀ e, s.assoc.heap p = some e → p ∈ cs s.iterator.prev_chain.toNat

theorem IterOk.keeps {s : St δ} {cs cs' : Nat → List Ptr} {t' : r_assoc δ} (h : IterOk s cs)
    (hk : Keeps s.assoc cs t' cs') : IterOk { s with assoc := t' } cs' where
  next p hp := by
    obtain ⟨hlt, hmem⟩ := h.next p hp
    refine ⟨Nat.lt_of_lt_of_le hlt hk.1, fun e' he' => ?_⟩
    obtain ⟨e, he, -, hcs⟩ := hk.2 p hlt e' he'
    exact hcs _ (hmem e he)
  prev p hp := by
    obtain ⟨hlt, hmem⟩ := h.prev p hp
    refine ⟨Nat.lt_of_lt_of_le hlt hk.1, fun e' he' => ?_⟩
    obtain ⟨e, he, -, hcs⟩ := hk.2 p hlt e' he'
    exact hcs _ (hmem e he)

/-- The table `s` stands for the map `a`. -/
structure Sim (s : St δ) (a : Abs δ) (cs : Nat → List Ptr) : Prop where
  rep : Rep s.assoc cs
  iter : IterOk s cs
  map : a.map = s.assoc.get
  last : ∀ p e, s.iterator.prev = some p → s.assoc.heap p = some e → a.last = some e.key

theorem Sim.keeps {s : St δ} {a : Abs δ} {cs cs' : Nat → List Ptr} {t' : r_assoc δ} (h : Sim s a cs)
    (hr : Rep t' cs') (hk : Keeps s.assoc cs t' cs') {m : Bytes → Option δ} (hm : m = t'.get) :
    Sim { s with assoc := t' } { a with map := m } cs' where
  rep := hr
  iter := h.iter.keeps hk
  map := hm
  last p e' hp he' := by
    obtain ⟨e, he, hkey, -⟩ := hk.2 p (h.iter.prev p hp).1 e' he'
    rw [← hkey]
    exact h.last p e hp he

/-- A represented table with a new iterator. -/
theorem Rep.sim {t : r_assoc δ} {cs : Nat → List Ptr} (h : Rep t cs) : Sim ⟨t, r_assoc_init_iter t⟩ ⟨t.get, none⟩ cs := by
  have hprev : (r_assoc_init_iter t).prev = none := by
    rw [r_assoc_init_iter]
    split <;> rfl
  refine ⟨h, ⟨fun p hp => ?_, fun p hp => ?_⟩, rfl, fun p e hp => ?_⟩
  · obtain ⟨e, he⟩ := h.live (h.init_iter.2 p hp)
    exact ⟨h.fresh p e he, fun _ _ => h.init_iter.2 p hp⟩
  · rw [show (r_assoc_init_iter t).prev = some p from hp] at hprev
    cases hprev
  · rw [show (r_assoc_init_iter t).prev = some p from hp] at hprev
    cases hprev

/-- The element an iterator may delete, and the table without it. -/
theorem Sim.iter_delete {s : St δ} {a : Abs δ} {cs : Nat → List Ptr} (h : Sim s a cs) (hl : legal s .iter_delete) :
    ∃ p e t', s.iterator.prev = some p ∧ s.assoc.heap p = some e ∧
      r_assoc_iter_delete s.assoc s.iterator = some (t', e.destroyCall) ∧ Rep t' (fun j => (cs j).erase p) ∧
      t'.entry = Function.update s.assoc.entry e.key none ∧ t'.num_elements = s.assoc.num_elements - 1 ∧
      Keeps s.assoc cs t' (fun j => (cs j).erase p) := by
  obtain ⟨p, hp, hlive⟩ : ∃ p, s.iterator.prev = some p ∧ (s.assoc.heap p).isSome := by
    simpa [legal, Option.any_eq_true] using hl
  obtain ⟨e₀, he₀⟩ := Option.isSome_iff_exists.1 hlive
  obtain ⟨t', e, he, hrel, hr, hent, -, -, hn, -, hk⟩ := h.rep.release_entry ((h.iter.prev p hp).2 e₀ he₀)
  refine ⟨p, e, t', hp, he, ?_, hr, hent, hn, hk⟩
  rw [r_assoc_iter_delete, hp]
  exact hrel

theorem sim_insert {s : St δ} {a : Abs δ} {cs : Nat → List Ptr} (h : Sim s a cs) (key : Bytes) (d : δ)
    (copy destroy : Option FnPtr) (how : How) :
    ∃ r s' a' cs', step s (.insert key d copy destroy how) = some (r, s') ∧
      Spec a (.insert key d copy destroy how) r a' ∧ Sim s' a' cs' := by
  have hmap : (a.map key).isSome = (s.assoc.entry key).isSome := by rw [h.map, r_assoc.get, Option.isSome_map]
  cases hent : s.assoc.entry key with
  | none =>
    obtain ⟨t', cs', hi, hr, he, -, -, -, hk⟩ := h.rep.insert_absent hent d copy destroy how
    refine ⟨.status .ok, { s with assoc := t' }, { a with map := Function.update a.map key (some d) }, cs',
      by simp [step, hi], by simp [Spec, hmap, hent], h.keeps hr hk ?_⟩
    rw [get_update he, h.map]
    rfl
  | some x =>
    cases how with
    | R_ASSOC_NEW =>
      exact ⟨.status .R_ALREADY, s, a, cs, by simp [step, h.rep.insert_already hent d copy destroy],
        by simp [Spec, hmap, hent], h⟩
    | R_ASSOC_REPLACE =>
      obtain ⟨t', hi, hr, he, -, -, hk⟩ := h.rep.insert_replace hent d copy destroy
      refine ⟨.status .ok, { s with assoc := t' }, { a with map := Function.update a.map key (some d) }, cs,
        by simp [step, hi], by simp [Spec], h.keeps hr hk ?_⟩
      rw [get_update he, h.map]
      rfl

theorem sim_delete {s : St δ} {a : Abs δ} {cs : Nat → List Ptr} (h : Sim s a cs) (key : Bytes) :
    ∃ r s' a' cs', step s (.delete key) = some (r, s') ∧ Spec a (.delete key) r a' ∧ Sim s' a' cs' := by
  have hmap : (a.map key).isSome = (s.assoc.entry key).isSome := by rw [h.map, r_assoc.get, Option.isSome_map]
  cases hent : s.assoc.entry key with
  | none =>
    exact ⟨.status .R_NOT_FOUND, s, a, cs, by simp [step, h.rep.delete_absent hent], by simp [Spec, hmap, hent], h⟩
  | some x =>
    obtain ⟨t', p, e, -, -, hd, hr, he, -, -, -, -, hk⟩ := h.rep.delete_present hent
    refine ⟨.status .ok, { s with assoc := t' }, { a with map := Function.update a.map key none }, _,
      by simp [step, hd], by simp [Spec, hmap, hent], h.keeps hr hk ?_⟩
    rw [get_update he, h.map]
    rfl

theorem sim_fetch {s : St δ} {a : Abs δ} {cs : Nat → List Ptr} (h : Sim s a cs) (key : Bytes) :
    ∃ r s' a' cs', step s (.fetch key) = some (r, s') ∧ Spec a (.fetch key) r a' ∧ Sim s' a' cs' := by
  cases hg : s.assoc.get key with
  | none =>
    exact ⟨.status .R_NOT_FOUND, s, a, cs, by simp [step, h.rep.fetch_eq, hg], by simp [Spec, h.map, hg], h⟩
  | some d => exact ⟨.datum d, s, a, cs, by simp [step, h.rep.fetch_eq, hg], by simp [Spec, h.map, hg], h⟩

theorem sim_init_iter {s : St δ} {a : Abs δ} {cs : Nat → List Ptr} (h : Sim s a cs) :
    ∃ r s' a' cs', step s .init_iter = some (r, s') ∧ Spec a .init_iter r a' ∧ Sim s' a' cs' := by
  refine ⟨.status .ok, { s with iterator := r_assoc_init_iter s.assoc }, { a with last := none }, cs, rfl, ⟨rfl, rfl⟩, ?_⟩
  rw [h.map]
  exact h.rep.sim

theorem sim_iter {s : St δ} {a : Abs δ} {cs : Nat → List Ptr} (h : Sim s a cs) (hl : legal s .iter) :
    ∃ r s' a' cs', step s .iter = some (r, s') ∧ Spec a .iter r a' ∧ Sim s' a' cs' := by
  cases hn : s.iterator.next with
  | none =>
    exact ⟨.status .R_EOD, s, a, cs, by simp [step, r_assoc_iter, hn], .inl ⟨rfl, rfl⟩, h⟩
  | some p =>
    obtain ⟨e₀, he₀⟩ := Option.isSome_iff_exists.1 (by simpa [legal, hn] using hl)
    have hp := (h.iter.next p hn).2 e₀ he₀
    obtain ⟨pre, rest, ho⟩ := List.append_of_mem (h.rep.mem_order.2 ⟨e₀, he₀⟩)
    obtain ⟨e, it, he, hi, hprev, hpc, -, hchain⟩ :=
      h.rep.iter_step ho ⟨hn, fun q hq => by rw [hn] at hq; cases hq; exact hp⟩
    refine ⟨.element e.key e.data, { s with iterator := it }, { a with last := some e.key }, cs,
      by simp [step, hi], .inr ⟨e.key, e.data, ?_, rfl, rfl⟩, h.rep, ⟨fun q hq => ?_, fun q hq => ?_⟩, h.map, ?_⟩
    · rw [h.map]
      exact h.rep.get_eq_some.2 ⟨p, e, he, rfl, rfl⟩
    · obtain ⟨e', he'⟩ := h.rep.live (hchain q hq)
      exact ⟨h.rep.fresh q e' he', fun _ _ => hchain q hq⟩
    · have hqp : q = p := by
        rw [hprev] at hq
        exact (Option.some.inj hq).symm
      subst hqp
      exact ⟨h.rep.fresh q e he, fun _ _ => hpc⟩
    · intro q e' hq he'
      have hqp : q = p := by
        rw [hprev] at hq
        exact (Option.some.inj hq).symm
      subst hqp
      rw [he] at he'
      cases he'
      rfl

theorem sim_iter_delete {s : St δ} {a : Abs δ} {cs : Nat → List Ptr} (h : Sim s a cs) (hl : legal s .iter_delete) :
    ∃ r s' a' cs', step s .iter_delete = some (r, s') ∧ Spec a .iter_delete r a' ∧ Sim s' a' cs' := by
  obtain ⟨p, e, t', hp, he, hdel, hr, hent, -, hk⟩ := h.iter_delete hl
  have hmap : a.map e.key = some e.data := by
    rw [h.map]
    exact h.rep.get_eq_some.2 ⟨p, e, he, rfl, rfl⟩
  refine ⟨.status .ok, { s with assoc := t' }, { a with map := Function.update a.map e.key none }, _,
    by simp [step, hdel], ⟨e.key, h.last p e hp he, by simp [hmap], rfl, rfl⟩, h.keeps hr hk ?_⟩
  rw [get_update hent, h.map]
  rfl

/-- Every allowed call returns and does to the map what `Spec` says. -/
theorem sim_step {s : St δ} {a : Abs δ} {cs : Nat → List Ptr} (h : Sim s a cs) (op : Op δ) (hl : legal s op) :
    ∃ r s' a' cs', step s op = some (r, s') ∧ Spec a op r a' ∧ Sim s' a' cs' := by
  cases op with
  | insert key d copy destroy how => exact sim_insert h key d copy destroy how
  | delete key => exact sim_delete h key
  | fetch key => exact sim_fetch h key
  | init_iter => exact sim_init_iter h
  | iter => exact sim_iter h hl
  | iter_delete => exact sim_iter_delete h hl

theorem sim_start (hash_func : Bytes → Nat → Nat) (bits : Nat) (hh : ∀ k, hash_func k bits < 2 ^ bits) :
    Sim (start hash_func bits : St δ) ⟨fun _ => none, none⟩ fun _ => [] := by
  have hr := create_rep (δ := δ) hash_func bits hh
  have hnone : ∀ k, (r_assoc_create hash_func bits : r_assoc δ).entry k = none := fun k =>
    hr.entry_eq_none.2 fun a e he => by cases he
  have hmap : (r_assoc_create hash_func bits : r_assoc δ).get = fun _ => none := by
    funext k
    simp [r_assoc.get, hnone]
  have hsim := hr.sim
  rwa [hmap] at hsim

/-- For every hash function into the chains and every sequence of calls from
the empty table, whatever keys collide: the table keeps its representation
invariant, its results are those of a finite map, which is what its fetches
read, and no allowed call fails to return. -/
theorem runs_refine_map (hash_func : Bytes → Nat → Nat) (bits : Nat) (hh : ∀ k, hash_func k bits < 2 ^ bits)
    {evs : List (Op δ × Ret δ)} {s : St δ} (hrun : Run step (fun s op => legal s op) (start hash_func bits) evs s) :
    Inv s.assoc ∧ (∃ a, SpecRun Spec ⟨fun _ => none, none⟩ evs a ∧ a.map = s.assoc.get) ∧
      ∀ op, legal s op → ∃ r s', step s op = some (r, s') := by
  obtain ⟨a, hspec, cs, hsim⟩ := hrun.refines (fun s a => ∃ cs, Sim s a cs) ⟨_, sim_start hash_func bits hh⟩ (by
    rintro s a op r s' ⟨cs, hsim⟩ hl hst
    obtain ⟨r₁, s₁, a', cs', hst', hspec, hsim'⟩ := sim_step hsim op hl
    rw [hst] at hst'
    cases hst'
    exact ⟨a', hspec, cs', hsim'⟩)
  refine ⟨⟨cs, hsim.rep⟩, ⟨a, hspec, hsim.map⟩, fun op hl => ?_⟩
  obtain ⟨r, s', _, _, hst, -, -⟩ := sim_step hsim op hl
  exact ⟨r, s', hst⟩

/-- Three keys in one chain: a refused insert, deletions at the head, in the
middle and through the iterator. -/
theorem runs_refine_map_one_chain :
    ∃ s : St Nat, Run step (fun s op => legal s op) (start (fun _ _ => 0) 0)
      [(.insert [1] 10 none none .R_ASSOC_NEW, .status .ok), (.insert [2] 20 none none .R_ASSOC_NEW, .status .ok),
        (.insert [1] 11 none none .R_ASSOC_NEW, .status .R_ALREADY),
        (.insert [3] 30 none none .R_ASSOC_REPLACE, .status .ok), (.delete [2], .status .ok),
        (.init_iter, .status .ok), (.iter, .element [3] 30), (.iter_delete, .status .ok), (.iter, .element [1] 10),
        (.iter, .status .R_EOD), (.fetch [3], .status .R_NOT_FOUND), (.fetch [1], .datum 10)] s ∧ Inv s.assoc := by
  obtain ⟨s, hex⟩ : ∃ s, exec step legal (start (fun _ _ => 0) 0 : St Nat)
      [.insert [1] 10 none none .R_ASSOC_NEW, .insert [2] 20 none none .R_ASSOC_NEW,
        .insert [1] 11 none none .R_ASSOC_NEW, .insert [3] 30 none none .R_ASSOC_REPLACE, .delete [2], .init_iter,
        .iter, .iter_delete, .iter, .iter, .fetch [3], .fetch [1]] =
      some ([.status .ok, .status .ok, .status .R_ALREADY, .status .ok, .status .ok, .status .ok, .element [3] 30,
        .status .ok, .element [1] 10, .status .R_EOD, .status .R_NOT_FOUND, .datum 10], s) := ⟨_, rfl⟩
  have hrun := Run.exec .nil hex
  exact ⟨s, hrun, (runs_refine_map _ _ (by simp) hrun).1⟩

end Nrappkit.Assoc
