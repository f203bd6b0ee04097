import Nrappkit.Assoc.CopySpec
/-!
# Tables in one memory

The machine of a program with any number of tables: it creates, copies and
destroys them, and makes the calls of `r_assoc.h` on each. `Owned` says which
elements of the memory are whose; a call on one table leaves what the others own
as it is (`wstep_owned`), so no order of calls on other tables changes what can
be fetched from a table.
-/
open Lib DLink

namespace Nrappkit.Assoc

variable {δ : Type}

/-- The memory and the tables in it. `next` is the name of the next table. -/
structure World (δ : Type) where
  mem : Mem δ
  tables : Nat → Option Handle
  next : Nat

/-- The calls of a program; `on` is a call on one table. -/
inductive WOp (δ : Type) where
  | create (hash_func : Bytes → Nat → Nat) (bits : Nat)
  | on (h : Nat) (op : Op δ)
  | copy (h : Nat)
  | num_elements (h : Nat)
  | destroy (h : Nat)

/-- What a call returns: `copied` and `destroyed` have the destructor calls. -/
inductive WRet (δ : Type) where
  | created (h : Nat)
  | ret (r : Ret δ)
  | copied (code : Int) (calls : List (FnPtr × δ))
  | size (n : Int)
  | destroyed (calls : List (FnPtr × δ))

/-- The table of a handle, in the memory. -/
def Handle.at (H : Handle) (m : Mem δ) : St δ := H.on m.heap m.brk

def World.empty : World δ := ⟨⟨fun _ => none, 0, []⟩, fun _ => none, 0⟩

/-- The handle of the copy, with a new iterator. -/
def Handle.copy (H : Handle) (chains : Nat → Option Ptr) (m : Mem δ) : Handle :=
  let assoc := { (H.at m).assoc with chains }
  St.handle ⟨assoc, r_assoc_init_iter assoc⟩

def wstep (fns : CopyFns δ) (w : World δ) : WOp δ → Option (WRet δ × World δ)
  | .create hash_func bits =>
    some (.created w.next, { w with
      tables := Function.update w.tables w.next (some (start hash_func bits : St δ).handle)
      next := w.next + 1 })
  | .on h op => do
    let H ← w.tables h
    let (r, s) ← step (H.at w.mem) op
    some (.ret r, { w with
      mem := { w.mem with heap := s.assoc.heap, brk := s.assoc.brk }
      tables := Function.update w.tables h (some s.handle) })
  | .copy h => do
    let H ← w.tables h
    let (r, m, knew, calls) ← r_assoc_copy fns w.mem H
    match knew with
    | some chains => some (.copied r calls, { w with
        mem := m
        tables := Function.update w.tables w.next (some (H.copy chains m))
        next := w.next + 1 })
    | none => some (.copied r calls, { w with mem := m })
  | .num_elements h => do
    let H ← w.tables h
    some (.size (r_assoc_num_elements (H.at w.mem).assoc), w)
  | .destroy h => do
    let H ← w.tables h
    let (m, calls) ← w.mem.r_assoc_destroy H.bits H.chains
    some (.destroyed calls, { w with mem := m, tables := Function.update w.tables h none })

/-- A call is made on a table that exists, and through an iterator only while
its element is allocated; a hash function maps into the chains. -/
def wlegal (w : World δ) : WOp δ → Prop
  | .create hash_func bits => ∀ k, hash_func k bits < 2 ^ bits
  | .on h op => ∃ H, w.tables h = some H ∧ legal (H.at w.mem) op = true
  | .copy h | .num_elements h | .destroy h => ∃ H, w.tables h = some H

/-- The call inserts into, deletes from or destroys the table `h`. -/
def WOp.actsOn (h : Nat) : WOp δ → Prop
  | .on g _ | .destroy g => g = h
  | .create _ _ | .copy _ | .num_elements _ => False

/-- `r_assoc_fetch` on a table. -/
def World.fetch (w : World δ) (h : Nat) (key : Bytes) : Option (Except Status δ) :=
  (w.tables h).bind fun H => r_assoc_fetch (H.at w.mem).assoc key

/-! ## Who owns which element -/

/-- A saved pointer of the iterator. -/
def Handle.Saved (H : Handle) (p : Ptr) : Prop := H.iterator.next = some p ∨ H.iterator.prev = some p

/-- `own h` are the elements of the table `h`. -/
structure Owned (w : World δ) (own : Nat → Heap (r_assoc_el δ)) : Prop where
  cover : ∀ a e, w.mem.heap a = some e ↔ ∃ h, own h a = some e
  apart : ∀ g h, g ≠ h → Apart (own g) (own h)
  fresh : w.mem.Fresh
  table : ∀ h H, w.tables h = some H → ∃ a cs, Sim (H.on (own h) w.mem.brk) a cs
  absent : ∀ h, w.tables h = none → ∀ a, own h a = none
  named : ∀ h, w.next ≤ h → w.tables h = none
  saved : ∀ h H, w.tables h = some H → ∀ p, H.Saved p → ∀ g, g ≠ h → own g p = none

/-- Every table satisfies its representation invariant, and no two share an
element. -/
def World.Ok (w : World δ) : Prop := ∃ own, Owned w own

theorem owned_empty : Owned (World.empty : World δ) fun _ _ => none where
  cover a e := by simp [World.empty]
  apart _ _ _ _ := .inl rfl
  fresh _ _ := rfl
  table _ _ hH := by cases hH
  absent _ _ _ := rfl
  named _ _ := rfl
  saved _ _ hH := by cases hH

/-! ## The allocator moves on -/

theorem Rep.grow {t : r_assoc δ} {cs : Nat → List Ptr} (h : Rep t cs) {b : Ptr} (hb : t.brk ≤ b) :
    Rep { t with brk := b } cs :=
  { h with fresh := fun a e he => Nat.lt_of_lt_of_le (h.fresh a e he) hb }

theorem Rep.entry_grow {t : r_assoc δ} {cs : Nat → List Ptr} (h : Rep t cs) {b : Ptr} (hb : t.brk ≤ b) :
    r_assoc.entry { t with brk := b } = t.entry := by
  funext key
  simp only [r_assoc.entry, h.fetch_bucket_eq, (h.grow hb).fetch_bucket_eq]
  rfl

theorem Sim.grow {s : St δ} {a : Abs δ} {cs : Nat → List Ptr} (h : Sim s a cs) {b : Ptr} (hb : s.assoc.brk ≤ b) :
    Sim { s with assoc := { s.assoc with brk := b } } a cs where
  rep := h.rep.grow hb
  iter := ⟨fun p hp => ⟨Nat.lt_of_lt_of_le (h.iter.next p hp).1 hb, (h.iter.next p hp).2⟩,
    fun p hp => ⟨Nat.lt_of_lt_of_le (h.iter.prev p hp).1 hb, (h.iter.prev p hp).2⟩⟩
  map := by
    rw [h.map]
    funext key
    rw [r_assoc.get, r_assoc.get, h.rep.entry_grow hb]
  last := h.last

theorem Owned.lt_brk {w : World δ} {own : Nat → Heap (r_assoc_el δ)} (h : Owned w own) {g : Nat} {a : Ptr}
    {e : r_assoc_el δ} (he : own g a = some e) : a < w.mem.brk :=
  Nat.lt_of_not_le fun hle => by
    have hlive := (h.cover a e).2 ⟨g, he⟩
    rw [h.fresh a hle] at hlive
    cases hlive

/-! ## A call on one table -/

/-- A released address is not handed out again. -/
theorem step_dead {s s' : St δ} {op : Op δ} {r : Ret δ} (hst : step s op = some (r, s')) {p : Ptr} (hlt : p < s.assoc.brk)
    (hp : s.assoc.heap p = none) : s'.assoc.heap p = none := by
  cases he : s'.assoc.heap p with
  | none => rfl
  | some e =>
    -- What lies at `p` could be somebody else's: the call leaves it alone.
    have hsh : Shares s.assoc fun q => if q = p then some e else none := by
      refine ⟨fun q => ?_, fun q hq => if_neg ?_⟩
      · by_cases hqp : q = p
        · exact .inl (hqp ▸ hp)
        · exact .inr (if_neg hqp)
      · rintro rfl
        exact Nat.not_lt.2 hq hlt
    obtain ⟨-, hsh'⟩ := step_beside hsh hst
    have hnone := hsh'.apart.rest_none he
    rw [if_pos rfl] at hnone
    cases hnone

/-- What a call does to its table: nothing, or it adds a key, overwrites one, or
removes one. -/
theorem step_cases {s s' : St δ} {a : Abs δ} {cs : Nat → List Ptr} (h : Sim s a cs) {op : Op δ} (hl : legal s op) {r : Ret δ}
    (hst : step s op = some (r, s')) :
    s'.assoc = s.assoc ∨
      s'.iterator = s.iterator ∧ s.assoc.brk ≤ s'.assoc.brk ∧
        ((∃ key x, s.assoc.entry key = none ∧ s'.assoc.entry = Function.update s.assoc.entry key (some x) ∧
            s'.assoc.num_elements = s.assoc.num_elements + 1) ∨
          (∃ key d copy destroy, op = .insert key d copy destroy .R_ASSOC_REPLACE ∧ (s.assoc.entry key).isSome = true ∧
            s'.assoc.entry = Function.update s.assoc.entry key (some (d, copy, destroy)) ∧
            s'.assoc.num_elements = s.assoc.num_elements + 1) ∨
          ∃ key x, s.assoc.entry key = some x ∧ s'.assoc.entry = Function.update s.assoc.entry key none ∧
            s'.assoc.num_elements = s.assoc.num_elements - 1) := by
  cases op with
  | insert key d copy destroy how =>
    cases hent : s.assoc.entry key with
    | none =>
      obtain ⟨t', cs', hi, -, he, -, hn, -, hk⟩ := h.rep.insert_absent hent d copy destroy how
      simp only [step, hi, Option.map_some, Option.some.injEq, Prod.mk.injEq] at hst
      obtain ⟨-, rfl⟩ := hst
      exact .inr ⟨rfl, hk.1, .inl ⟨key, _, hent, he, hn⟩⟩
    | some x =>
      cases how with
      | R_ASSOC_NEW =>
        simp only [step, h.rep.insert_already hent, Option.map_some, Option.some.injEq, Prod.mk.injEq] at hst
        obtain ⟨-, rfl⟩ := hst
        exact .inl rfl
      | R_ASSOC_REPLACE =>
        obtain ⟨t', hi, -, he, hn, -, hk⟩ := h.rep.insert_replace hent d copy destroy
        simp only [step, hi, Option.map_some, Option.some.injEq, Prod.mk.injEq] at hst
        obtain ⟨-, rfl⟩ := hst
        exact .inr ⟨rfl, hk.1, .inr (.inl ⟨key, d, copy, destroy, rfl, by simp [hent], he, hn⟩)⟩
  | delete key =>
    cases hent : s.assoc.entry key with
    | none =>
      simp only [step, h.rep.delete_absent hent, Option.map_some, Option.some.injEq, Prod.mk.injEq] at hst
      obtain ⟨-, rfl⟩ := hst
      exact .inl rfl
    | some x =>
      obtain ⟨t', _, _, -, -, hd, -, he, -, -, hn, -, hk⟩ := h.rep.delete_present hent
      simp only [step, hd, Option.map_some, Option.some.injEq, Prod.mk.injEq] at hst
      obtain ⟨-, rfl⟩ := hst
      exact .inr ⟨rfl, hk.1, .inr (.inr ⟨key, x, hent, he, hn⟩)⟩
  | fetch key =>
    obtain ⟨x, -, hx⟩ := Option.map_eq_some_iff.1 hst
    cases x <;> cases hx <;> exact .inl rfl
  | init_iter =>
    cases hst
    exact .inl rfl
  | iter =>
    obtain ⟨x, -, hx⟩ := Option.map_eq_some_iff.1 hst
    cases x <;> cases hx <;> exact .inl rfl
  | iter_delete =>
    obtain ⟨p, e, t', hp, he, hdel, -, hent, hn, hk⟩ := h.iter_delete hl
    simp only [step, hdel, Option.map_some, Option.some.injEq, Prod.mk.injEq] at hst
    obtain ⟨-, rfl⟩ := hst
    exact .inr ⟨rfl, hk.1, .inr (.inr ⟨e.key, _, h.rep.entry_eq_some.2 ⟨p, e, he, rfl⟩, hent, hn⟩)⟩

/-- An iterator's pointers are the old ones, or lie in the table. -/
theorem step_saved {s s' : St δ} {a : Abs δ} {cs : Nat → List Ptr} (h : Sim s a cs) {op : Op δ} (hl : legal s op) {r : Ret δ}
    (hst : step s op = some (r, s')) {p : Ptr} (hp : s'.handle.Saved p) :
    s.handle.Saved p ∨ ∃ e, s'.assoc.heap p = some e := by
  rcases step_cases h hl hst with hsame | ⟨hit, -⟩
  · rw [hsame]
    cases op with
    | init_iter =>
      cases hst
      have hnext : (r_assoc_init_iter s.assoc).next = some p := by
        refine hp.resolve_right fun hprev => ?_
        simp only [St.handle, r_assoc_init_iter] at hprev
        split at hprev <;> cases hprev
      exact .inr (h.rep.live (h.rep.init_iter.2 p hnext))
    | iter =>
      cases hn : s.iterator.next with
      | none =>
        simp only [step, r_assoc_iter, hn, Option.map_some, Option.some.injEq, Prod.mk.injEq] at hst
        obtain ⟨-, rfl⟩ := hst
        exact .inl hp
      | some q =>
        obtain ⟨e, he⟩ := Option.isSome_iff_exists.1 (by simpa [legal, hn] using hl)
        obtain ⟨pre, rest, ho⟩ := List.append_of_mem (h.rep.mem_order.2 ⟨e, he⟩)
        have hq := (h.iter.next q hn).2 e he
        obtain ⟨e', it, he', hi, hprev, -, -, hchain⟩ :=
          h.rep.iter_step ho ⟨hn, fun x hx => by rw [hn] at hx; cases hx; exact hq⟩
        simp only [step, hi, Option.map_some, Option.some.injEq, Prod.mk.injEq] at hst
        obtain ⟨-, rfl⟩ := hst
        rcases hp with hp | hp
        · exact .inr (h.rep.live (hchain p hp))
        · obtain rfl : q = p := Option.some.inj (hprev.symm.trans hp)
          exact .inr ⟨e', he'⟩
    | fetch key =>
      obtain ⟨x, -, hx⟩ := Option.map_eq_some_iff.1 hst
      cases x <;> cases hx <;> exact .inl hp
    | insert key d copy destroy how =>
      obtain ⟨x, -, hx⟩ := Option.map_eq_some_iff.1 hst
      cases hx
      exact .inl hp
    | delete key =>
      obtain ⟨x, -, hx⟩ := Option.map_eq_some_iff.1 hst
      cases hx
      exact .inl hp
    | iter_delete =>
      obtain ⟨x, -, hx⟩ := Option.map_eq_some_iff.1 hst
      cases hx
      exact .inl hp
  · refine .inl ?_
    rwa [Handle.Saved, St.handle, hit] at hp

/-! ## Ownership is kept -/

section
variable {w : World δ} {own : Nat → Heap (r_assoc_el δ)} {h : Nat} {H : Handle}

/-- What the memory holds besides the elements of `h`. -/
def others (w : World δ) (part : Heap (r_assoc_el δ)) : Heap (r_assoc_el δ) := fun a =>
  if (part a).isSome then none else w.mem.heap a

theorem Owned.heap_eq (ho : Owned w own) (h : Nat) : w.mem.heap = join (own h) (others w (own h)) := by
  funext a
  cases he : own h a with
  | none => simp [join, others, he]
  | some e =>
    rw [join_some he]
    exact (ho.cover a e).2 ⟨h, he⟩

theorem Owned.others_eq_some (ho : Owned w own) {a : Ptr} {e : r_assoc_el δ} :
    others w (own h) a = some e ↔ ∃ g, g ≠ h ∧ own g a = some e := by
  rw [others]
  constructor
  · intro he
    split at he
    · cases he
    · rename_i hnone
      obtain ⟨g, hg⟩ := (ho.cover a e).1 he
      refine ⟨g, ?_, hg⟩
      rintro rfl
      exact hnone (by simp [hg])
  · rintro ⟨g, hgh, hg⟩
    have hnone : own h a = none := (ho.apart g h hgh).rest_none hg
    rw [hnone]
    exact (ho.cover a e).2 ⟨g, hg⟩

/-- What is not among the others' elements is no other table's. -/
theorem Owned.not_other (ho : Owned w own) {a : Ptr} (hno : others w (own h) a = none) {g : Nat} (hg : g ≠ h) : own g a = none := by
  cases he : own g a with
  | none => rfl
  | some e =>
    rw [ho.others_eq_some.2 ⟨g, hg, he⟩] at hno
    cases hno

theorem Owned.shares (ho : Owned w own) (h : Nat) (H : Handle) : Shares (H.on (own h) w.mem.brk).assoc (others w (own h)) := by
  refine ⟨fun a => ?_, fun a ha => ?_⟩
  · cases he : own h a with
    | none => exact .inl he
    | some e => exact .inr (if_pos (by simp [he]))
  · rw [others]
    split
    · rfl
    · exact ho.fresh a ha

/-- The table in the memory is the table on its own elements beside the others. -/
theorem Owned.at_eq (ho : Owned w own) (h : Nat) (H : Handle) :
    H.at w.mem = (H.on (own h) w.mem.brk).beside (others w (own h)) := by
  rw [Handle.at, ho.heap_eq h]
  rfl

/-- The element that a table's iterator points to is the table's own, if there is
one. -/
theorem Owned.saved_own (ho : Owned w own) (hH : w.tables h = some H) {p : Ptr} (hp : H.Saved p) {e : r_assoc_el δ}
    (he : w.mem.heap p = some e) : own h p = some e := by
  obtain ⟨g, hg⟩ := (ho.cover p e).1 he
  by_cases hgh : g = h
  · rwa [← hgh]
  · rw [ho.saved h H hH p hp g hgh] at hg
    cases hg

/-- A call is legal in the memory only if it is on the table alone. -/
theorem Owned.legal (ho : Owned w own) (hH : w.tables h = some H) {op : Op δ} (hl : Assoc.legal (H.at w.mem) op = true) :
    Assoc.legal (H.on (own h) w.mem.brk) op = true := by
  have hown : ∀ p, H.Saved p → (w.mem.heap p).isSome → (own h p).isSome := by
    intro p hp hlive
    obtain ⟨e, he⟩ := Option.isSome_iff_exists.1 hlive
    rw [ho.saved_own hH hp he]
    rfl
  cases op with
  | iter =>
    cases hn : H.iterator.next with
    | none => simp [Assoc.legal, Handle.on, hn]
    | some p =>
      simp only [Assoc.legal, Handle.at, Handle.on, hn, Option.all_some] at hl ⊢
      exact hown p (.inl hn) hl
  | iter_delete =>
    cases hn : H.iterator.prev with
    | none => simp [Assoc.legal, Handle.at, Handle.on, hn] at hl
    | some p =>
      simp only [Assoc.legal, Handle.at, Handle.on, hn, Option.any_some] at hl ⊢
      exact hown p (.inr hn) hl
  | insert _ _ _ _ _ | delete _ | fetch _ | init_iter => rfl

/-- Elements that are not among the others' are apart from each other table's. -/
theorem Owned.apart_part (ho : Owned w own) {part : Heap (r_assoc_el δ)}
    (hpart : ∀ a e, part a = some e → others w (own h) a = none) {g : Nat} (hg : g ≠ h) : Apart part (own g) := by
  intro a
  cases hp : part a with
  | none => exact .inl rfl
  | some e => exact .inr (ho.not_other (hpart a e hp) hg)

/-- No such element lies where an iterator of another table points: the pointer
is below `brk`, and its element is the table's own or was released. -/
theorem Owned.saved_part (ho : Owned w own) {part : Heap (r_assoc_el δ)}
    (hpart : ∀ a e, part a = some e → others w (own h) a = none)
    (hdead : ∀ a, a < w.mem.brk → w.mem.heap a = none → part a = none) {g : Nat} (hg : g ≠ h) {H' : Handle}
    (hH' : w.tables g = some H') {p : Ptr} (hp : H'.Saved p) : part p = none := by
  obtain ⟨a, cs, hsim⟩ := ho.table g H' hH'
  have hlt : p < w.mem.brk := hp.elim (fun hp => (hsim.iter.next p hp).1) fun hp => (hsim.iter.prev p hp).1
  cases hpp : part p with
  | none => rfl
  | some e' =>
    have hown : own g p = none := ho.not_other (hpart p e' hpp) hg
    have hdead' : w.mem.heap p = none := by
      cases hlive : w.mem.heap p with
      | none => rfl
      | some e =>
        rw [ho.saved_own hH' hp hlive] at hown
        cases hown
    rw [hdead p hlt hdead'] at hpp
    cases hpp

/-- Replacing a table and its elements, by such that no other table has. -/
theorem Owned.replace (ho : Owned w own) {m : Mem δ} {part : Heap (r_assoc_el δ)} {T : Option Handle} {next : Nat}
    (hm : m.heap = join part (others w (own h))) (hbrk : w.mem.brk ≤ m.brk)
    (hpart : ∀ a e, part a = some e → a < m.brk ∧ others w (own h) a = none)
    (htab : ∀ H', T = some H' → (∃ a cs, Sim (H'.on part m.brk) a cs) ∧ ∀ p, H'.Saved p → others w (own h) p = none)
    (hnone : T = none → ∀ a, part a = none) (hdead : ∀ a, a < w.mem.brk → w.mem.heap a = none → part a = none)
    (hnext : w.next ≤ next) (hname : next ≤ h → T = none) :
    Owned ⟨m, Function.update w.tables h T, next⟩ (Function.update own h part) where
  cover a e := by
    rw [show (⟨m, Function.update w.tables h T, next⟩ : World δ).mem.heap = m.heap from rfl, hm, join_eq_some, ho.others_eq_some]
    constructor
    · rintro (he | ⟨-, g, hg, he⟩)
      · exact ⟨h, by rwa [Function.update_self]⟩
      · exact ⟨g, by rwa [Function.update_of_ne hg]⟩
    · rintro ⟨g, he⟩
      by_cases hg : g = h
      · subst hg
        rw [Function.update_self] at he
        exact .inl he
      · rw [Function.update_of_ne hg] at he
        exact .inr ⟨(ho.apart_part (fun a e he => (hpart a e he).2) hg).symm.rest_none he, g, hg, he⟩
  apart := by
    have hnew : ∀ g, g ≠ h → Apart part (own g) := fun g => ho.apart_part fun a e he => (hpart a e he).2
    intro g g' hne
    by_cases hg : g = h
    · subst hg
      rw [Function.update_self, Function.update_of_ne (Ne.symm hne)]
      exact hnew g' (Ne.symm hne)
    · rw [Function.update_of_ne hg]
      by_cases hg' : g' = h
      · subst hg'
        rw [Function.update_self]
        exact (hnew g hg).symm
      · rw [Function.update_of_ne hg']
        exact ho.apart g g' hne
  fresh a ha := by
    have hle : m.brk ≤ a := ha
    cases he : m.heap a with
    | none => rfl
    | some e =>
      rw [hm] at he
      rcases join_eq_some.1 he with hp | ⟨-, hoth⟩
      · exact absurd (hpart a e hp).1 (Nat.not_lt.2 hle)
      · obtain ⟨g, -, hg⟩ := ho.others_eq_some.1 hoth
        exact absurd (ho.lt_brk hg) (Nat.not_lt.2 (Nat.le_trans hbrk hle))
  table g H' hH' := by
    rcases update_some hH' with ⟨rfl, hT⟩ | ⟨hg, hold⟩
    · rw [Function.update_self]
      exact (htab H' hT).1
    · rw [Function.update_of_ne hg]
      obtain ⟨a, cs, hsim⟩ := ho.table g H' hold
      exact ⟨a, cs, hsim.grow hbrk⟩
  absent g hg := by
    replace hg : Function.update w.tables h T g = none := hg
    by_cases hgh : g = h
    · subst hgh
      rw [Function.update_self] at hg ⊢
      exact hnone hg
    · rw [Function.update_of_ne hgh] at hg ⊢
      exact ho.absent g hg
  named g hg := by
    by_cases hgh : g = h
    · subst hgh
      exact (Function.update_self ..).trans (hname hg)
    · exact (Function.update_of_ne hgh _ _).trans (ho.named g (Nat.le_trans hnext hg))
  saved g H' hH' p hp g' hne := by
    rcases update_some hH' with ⟨rfl, hT⟩ | ⟨hg, hold⟩
    · rw [Function.update_of_ne hne]
      exact ho.not_other ((htab H' hT).2 p hp) hne
    · by_cases hg' : g' = h
      · subst hg'
        rw [Function.update_self]
        exact ho.saved_part (fun a e he => (hpart a e he).2) hdead hg hold hp
      · rw [Function.update_of_ne hg']
        exact ho.saved g H' hold p hp g' hne

/-- A call on the table `h`. -/
theorem Owned.on (ho : Owned w own) (hH : w.tables h = some H) {op : Op δ} (hl : Assoc.legal (H.at w.mem) op = true) :
    ∃ r s, step (H.on (own h) w.mem.brk) op = some (r, s) ∧ step (H.at w.mem) op = some (r, s.beside (others w (own h))) ∧
      w.mem.brk ≤ s.assoc.brk ∧
      Owned ⟨⟨join s.assoc.heap (others w (own h)), s.assoc.brk, w.mem.copies⟩, Function.update w.tables h (some s.handle), w.next⟩
        (Function.update own h s.assoc.heap) := by
  obtain ⟨a, cs, hsim⟩ := ho.table h H hH
  have hl' := ho.legal hH hl
  obtain ⟨r, s, a', cs', hst, -, hsim'⟩ := sim_step hsim op hl'
  obtain ⟨hst', hsh⟩ := step_beside (ho.shares h H) hst
  have hbrk : w.mem.brk ≤ s.assoc.brk := by
    rcases step_cases hsim hl' hst with hsame | ⟨-, hle, -⟩
    · rw [hsame]
      exact Nat.le_refl _
    · exact hle
  rw [← ho.at_eq h H] at hst'
  refine ⟨r, s, hst, hst', hbrk, ho.replace rfl hbrk (fun p e he => ⟨hsim'.rep.fresh p e he, hsh.apart.rest_none he⟩) ?_
    (fun hno => by cases hno) (fun p hlt hp => step_dead hst hlt ?_) (Nat.le_refl _) fun hname => ?_⟩
  · rintro H' hH'
    cases hH'
    refine ⟨⟨a', cs', hsim'⟩, fun p hp => ?_⟩
    rcases step_saved hsim hl' hst hp with hold | ⟨e, he⟩
    · cases hoth : others w (own h) p with
      | none => rfl
      | some e =>
        obtain ⟨g, hg, he⟩ := ho.others_eq_some.1 hoth
        rw [ho.saved h H hH p hold g hg] at he
        cases he
    · exact hsh.apart.rest_none he
  · cases he : own h p with
    | none => exact he
    | some e =>
      rw [(ho.cover p e).2 ⟨h, he⟩] at hp
      cases hp
  · rw [ho.named h hname] at hH
    cases hH

theorem Owned.own_next (ho : Owned w own) : own w.next = fun _ => none :=
  funext (ho.absent _ (ho.named _ (Nat.le_refl _)))

theorem Owned.others_next (ho : Owned w own) : others w (own w.next) = w.mem.heap := by
  rw [ho.own_next]
  rfl

theorem Owned.create (ho : Owned w own) {hash_func : Bytes → Nat → Nat} {bits : Nat} (hh : ∀ k, hash_func k bits < 2 ^ bits) :
    Owned ⟨w.mem, Function.update w.tables w.next (some (start hash_func bits : St δ).handle), w.next + 1⟩
      (Function.update own w.next fun _ => none) := by
  have hsim := sim_start (δ := δ) hash_func bits hh
  refine ho.replace ?_ (Nat.le_refl _) (fun a e he => by cases he) ?_ (fun hno => by cases hno) (fun _ _ _ => rfl)
    (Nat.le_succ _) fun hle => absurd hle (Nat.not_succ_le_self _)
  · rw [ho.others_next]
    rfl
  · rintro H' hH'
    cases hH'
    refine ⟨⟨_, _, hsim.grow (Nat.zero_le _)⟩, fun p hp => ?_⟩
    have hlt : p < 0 := hp.elim (fun hp => (hsim.iter.next p hp).1) fun hp => (hsim.iter.prev p hp).1
    exact absurd hlt (Nat.not_lt_zero _)

/-- Only the allocator has moved on. -/
theorem Owned.grow (ho : Owned w own) {m : Mem δ} (hm : m.heap = w.mem.heap) (hbrk : w.mem.brk ≤ m.brk) :
    Owned { w with mem := m } own := by
  have hrep : Owned ⟨m, Function.update w.tables w.next none, w.next⟩ (Function.update own w.next fun _ => none) :=
    ho.replace (by rw [hm, ho.others_next]; rfl) hbrk (fun a e he => by cases he) (fun _ hno => by cases hno) (fun _ _ => rfl)
      (fun _ _ _ => rfl) (Nat.le_refl _) fun _ => rfl
  rwa [← ho.own_next, Function.update_eq_self, ← ho.named w.next (Nat.le_refl _), Function.update_eq_self] at hrep

/-- The chains of a table in the memory. -/
theorem Owned.laid (ho : Owned w own) (hH : w.tables h = some H) :
    ∃ cs, Rep (H.on (own h) w.mem.brk).assoc cs ∧ Laid w.mem H.chains cs (2 ^ H.bits) 0 ∧
      ∀ j, ∀ a ∈ cs j, w.mem.heap a = own h a := by
  obtain ⟨_, cs, hsim⟩ := ho.table h H hH
  have hsame : ∀ j, ∀ a ∈ cs j, w.mem.heap a = own h a := by
    intro j a ha
    obtain ⟨e, he⟩ := hsim.rep.live ha
    rw [show own h a = some e from he]
    exact (ho.cover a e).2 ⟨h, he⟩
  refine ⟨cs, hsim.rep, fun j _ hj => ⟨?_, hsim.rep.nodup j, fun a ha => ?_⟩, hsame⟩
  · rw [Nat.zero_add] at hj
    exact (hsim.rep.seg j hj).frame (hsame j)
  · obtain ⟨e, he⟩ := hsim.rep.live ha
    exact hsim.rep.fresh a e he

/-- Destroying a table releases its elements and no other. -/
theorem Owned.destroy (ho : Owned w own) (hH : w.tables h = some H) :
    ∃ m calls, w.mem.r_assoc_destroy H.bits H.chains = some (m, calls) ∧
      r_assoc_destroy (H.on (own h) w.mem.brk).assoc = some calls ∧ w.mem.brk ≤ m.brk ∧
      Owned ⟨m, Function.update w.tables h none, w.next⟩ (Function.update own h fun _ => none) := by
  obtain ⟨cs, hrep, hlaid, hsame⟩ := ho.laid hH
  have hcells : ∀ a ∈ orderFrom cs (2 ^ H.bits) 0, w.mem.heap a = own h a := by
    intro a ha
    obtain ⟨j, -, -, haj⟩ := mem_orderFrom.1 ha
    exact hsame j a haj
  have hlt : ∀ a ∈ orderFrom cs (2 ^ H.bits) 0, a < w.mem.brk := by
    intro a ha
    obtain ⟨j, h1, h2, haj⟩ := mem_orderFrom.1 ha
    exact (hlaid j h1 h2).2.2 a haj
  have hdes := Mem.destroy_chains_seg (fun j h1 h2 => (hlaid j h1 h2).1) (hrep.nodup_orderFrom _ _) hlt
  refine ⟨⟨without w.mem.heap (orderFrom cs (2 ^ H.bits) 0), w.mem.brk, w.mem.copies⟩,
    (orderFrom cs (2 ^ H.bits) 0).flatMap (destroyAt w.mem.heap), by rw [Mem.r_assoc_destroy, hdes]; rfl, ?_, Nat.le_refl _, ho.replace ?_ (Nat.le_refl _) (fun a e he => by cases he)
    (fun _ hno => by cases hno) (fun _ _ => rfl) (fun _ _ _ => rfl) (Nat.le_refl _) fun _ => rfl⟩
  · rw [hrep.destroy_eq]
    have hcalls : (orderFrom cs (2 ^ H.bits) 0).flatMap (destroyAt w.mem.heap) =
        (orderFrom cs (2 ^ H.bits) 0).flatMap (destroyAt (own h)) :=
      List.flatMap_congr fun a ha => by rw [destroyAt, hcells a ha, destroyAt]
    rw [hcalls]
    rfl
  · funext a
    have hmem : a ∈ orderFrom cs (2 ^ H.bits) 0 ↔ ∃ e, own h a = some e := hrep.mem_order
    cases he : own h a with
    | none =>
      have hout : a ∉ orderFrom cs (2 ^ H.bits) 0 := fun hin => by
        obtain ⟨e, he'⟩ := hmem.1 hin
        rw [he] at he'
        cases he'
      simp [without, hout, join, others, he]
    | some e => simp [without, hmem.2 ⟨e, he⟩, join, others, he]

/-- A copy that succeeds is a new table; of one that fails nothing is left. -/
theorem Owned.copy (fns : CopyFns δ) (ho : Owned w own) {cs : Nat → List Ptr}
    (hrep : Rep (H.on (own h) w.mem.brk).assoc cs) (hlaid : Laid w.mem H.chains cs (2 ^ H.bits) 0)
    (hsame : ∀ j, ∀ a ∈ cs j, w.mem.heap a = own h a) {c : Int × List (r_assoc_el δ) × List (CopyCall δ)}
    (hc : copyEls fns w.mem.copies.length ((orderFrom cs (2 ^ H.bits) 0).filterMap w.mem.heap) = c) :
    (c.1 = 0 → ∃ m chains ns k, r_assoc_copy fns w.mem H = some (0, m, some chains, []) ∧ w.mem.brk ≤ m.brk ∧
      Built w.mem m cs ns chains (2 ^ H.bits) 0 k c [] ∧
      Rep (newTable (H.on (own h) w.mem.brk).assoc w.mem m chains) ns ∧
      Owned ⟨m, Function.update w.tables w.next (some (H.copy chains m)), w.next + 1⟩
        (Function.update own w.next (without m.heap (List.range w.mem.brk)))) ∧
    (c.1 ≠ 0 → ∃ m calls, r_assoc_copy fns w.mem H = some (c.1, m, none, calls) ∧ m.heap = w.mem.heap ∧ w.mem.brk ≤ m.brk ∧
      m.copies = w.mem.copies ++ c.2.2 ∧ calls.Perm (c.2.1.flatMap r_assoc_el.destroyCall) ∧
      Owned { w with mem := m } own) := by
  obtain ⟨hok, hfail⟩ := r_assoc_copy_spec fns ho.fresh hlaid hc
  refine ⟨fun h0 => ?_, fun h0 => ?_⟩
  · obtain ⟨m, chains, ns, k, hrun, hbuilt⟩ := hok h0
    have hle : w.mem.brk ≤ m.brk := Nat.le_trans (Nat.le_add_right ..) hbuilt.brk
    have hnew := hbuilt.rep hrep hsame h0
    refine ⟨m, chains, ns, k, hrun, hle, hbuilt, hnew, ho.replace ?_ hle ?_ ?_ (fun hno => by cases hno) ?_ (Nat.le_succ _)
      fun hname => absurd hname (Nat.not_succ_le_self _)⟩
    · rw [ho.others_next]
      funext a
      rcases Nat.lt_or_ge a w.mem.brk with hlo | hlo
      · simp [join, without, hlo, hbuilt.old a hlo]
      · simp [join, without, Nat.not_lt.2 hlo, ho.fresh a hlo]
    · rw [ho.others_next]
      intro a e he
      obtain ⟨hlo, -⟩ : w.mem.brk ≤ a ∧ m.heap a = some e := by simpa [without] using he
      exact ⟨hnew.fresh a e he, ho.fresh a hlo⟩
    · rw [ho.others_next]
      rintro H' hH'
      cases hH'
      refine ⟨⟨_, _, hnew.sim⟩, fun p hp => ?_⟩
      rcases hp with hp | hp
      · have hmem := hnew.init_iter.2 p hp
        exact ho.fresh p (hbuilt.new_cell hmem).2.1
      · obtain ⟨hlt, -⟩ := hnew.sim.iter.prev p hp
        simp only [Handle.copy, St.handle, r_assoc_init_iter] at hp
        split at hp <;> cases hp
    · intro a hlt _
      exact if_pos (List.mem_range.2 hlt)
  · obtain ⟨m, calls, hrun, hheap, hle, hcop, hperm⟩ := hfail h0
    exact ⟨m, calls, hrun, hheap, hle, hcop, hperm, ho.grow hheap hle⟩

end

/-! ## What a call does -/

/-- What a call does to the tables and to who owns what. -/
def WEffect (fns : CopyFns δ) (w w' : World δ) (own own' : Nat → Heap (r_assoc_el δ)) (r : WRet δ) : WOp δ → Prop
  | .create hash_func bits => r = .created w.next ∧
      w' = ⟨w.mem, Function.update w.tables w.next (some (start hash_func bits : St δ).handle), w.next + 1⟩ ∧
      own' = Function.update own w.next fun _ => none
  | .on h op => ∃ H q s, w.tables h = some H ∧ legal (H.on (own h) w.mem.brk) op = true ∧
      step (H.on (own h) w.mem.brk) op = some (q, s) ∧ r = .ret q ∧ w.mem.brk ≤ s.assoc.brk ∧
      w' = ⟨⟨join s.assoc.heap (others w (own h)), s.assoc.brk, w.mem.copies⟩, Function.update w.tables h (some s.handle), w.next⟩ ∧
      own' = Function.update own h s.assoc.heap
  | .copy h => ∃ H cs c, w.tables h = some H ∧ Rep (H.on (own h) w.mem.brk).assoc cs ∧
      Laid w.mem H.chains cs (2 ^ H.bits) 0 ∧ (∀ j, ∀ a ∈ cs j, w.mem.heap a = own h a) ∧
      copyEls fns w.mem.copies.length ((orderFrom cs (2 ^ H.bits) 0).filterMap w.mem.heap) = c ∧ w.mem.brk ≤ w'.mem.brk ∧
      ((c.1 = 0 ∧ r = .copied 0 [] ∧ ∃ chains ns k,
          w' = ⟨w'.mem, Function.update w.tables w.next (some (H.copy chains w'.mem)), w.next + 1⟩ ∧
          Built w.mem w'.mem cs ns chains (2 ^ H.bits) 0 k c [] ∧
          Rep (newTable (H.on (own h) w.mem.brk).assoc w.mem w'.mem chains) ns ∧
          own' = Function.update own w.next (without w'.mem.heap (List.range w.mem.brk))) ∨
        (c.1 ≠ 0 ∧ ∃ calls, r = .copied c.1 calls ∧ w' = { w with mem := w'.mem } ∧ w'.mem.heap = w.mem.heap ∧
          w'.mem.copies = w.mem.copies ++ c.2.2 ∧ calls.Perm (c.2.1.flatMap r_assoc_el.destroyCall) ∧ own' = own))
  | .num_elements h => ∃ H, w.tables h = some H ∧ r = .size (r_assoc_num_elements (H.at w.mem).assoc) ∧ w' = w ∧ own' = own
  | .destroy h => ∃ H m calls, w.tables h = some H ∧ r_assoc_destroy (H.on (own h) w.mem.brk).assoc = some calls ∧
      r = .destroyed calls ∧ w.mem.brk ≤ m.brk ∧ w' = ⟨m, Function.update w.tables h none, w.next⟩ ∧
      own' = Function.update own h fun _ => none

section
variable {w w' : World δ} {own own' : Nat → Heap (r_assoc_el δ)} {fns : CopyFns δ} {op : WOp δ} {r : WRet δ}

/-- Every allowed call returns, and ownership is kept. -/
theorem wstep_owned (fns : CopyFns δ) (ho : Owned w own) (hl : wlegal w op) :
    ∃ r w' own', wstep fns w op = some (r, w') ∧ Owned w' own' ∧ WEffect fns w w' own own' r op := by
  cases op with
  | create hash_func bits => exact ⟨_, _, _, rfl, ho.create hl, rfl, rfl, rfl⟩
  | on h op =>
    obtain ⟨H, hH, hl⟩ := hl
    obtain ⟨q, s, hst, hst', hbrk, ho'⟩ := ho.on hH hl
    exact ⟨.ret q, _, _, by simp [wstep, hH, hst']; exact ⟨⟨rfl, rfl⟩, rfl⟩, ho', H, q, s, hH, ho.legal hH hl, hst, rfl, hbrk, rfl, rfl⟩
  | copy h =>
    obtain ⟨H, hH⟩ := hl
    obtain ⟨cs, hrep, hlaid, hsame⟩ := ho.laid hH
    obtain ⟨hok, hfail⟩ := ho.copy fns hrep hlaid hsame rfl
    by_cases h0 : (copyEls fns w.mem.copies.length ((orderFrom cs (2 ^ H.bits) 0).filterMap w.mem.heap)).1 = 0
    · obtain ⟨m, chains, ns, k, hrun, hbrk, hbuilt, hnew, ho'⟩ := hok h0
      exact ⟨.copied 0 [], _, _, by simp [wstep, hH, hrun], ho', H, cs, _, hH, hrep, hlaid, hsame, rfl, hbrk,
        .inl ⟨h0, rfl, chains, ns, k, rfl, hbuilt, hnew, rfl⟩⟩
    · obtain ⟨m, calls, hrun, hheap, hbrk, hcop, hperm, ho'⟩ := hfail h0
      exact ⟨.copied _ calls, _, _, by simp [wstep, hH, hrun], ho', H, cs, _, hH, hrep, hlaid, hsame, rfl, hbrk,
        .inr ⟨h0, calls, rfl, rfl, hheap, hcop, hperm, rfl⟩⟩
  | num_elements h =>
    obtain ⟨H, hH⟩ := hl
    exact ⟨_, w, own, by simp [wstep, hH], ho, H, hH, rfl, rfl, rfl⟩
  | destroy h =>
    obtain ⟨H, hH⟩ := hl
    obtain ⟨m, calls, hrun, hcalls, hbrk, ho'⟩ := ho.destroy hH
    exact ⟨.destroyed calls, _, _, by simp [wstep, hH, hrun], ho', H, m, calls, hH, hcalls, rfl, hbrk, rfl, rfl⟩

/-- A table that the call is not made on keeps its handle and its elements. -/
theorem WEffect.frame (ho : Owned w own) (he : WEffect fns w w' own own' r op) {g : Nat} (hg : ¬ op.actsOn g) {G : Handle}
    (hG : w.tables g = some G) : w'.tables g = some G ∧ own' g = own g ∧ w.mem.brk ≤ w'.mem.brk := by
  have hnew : g ≠ w.next := by
    rintro rfl
    rw [ho.named _ (Nat.le_refl _)] at hG
    cases hG
  cases op with
  | create hash_func bits =>
    obtain ⟨-, rfl, rfl⟩ := he
    exact ⟨by rw [← hG]; exact Function.update_of_ne hnew _ _, Function.update_of_ne hnew _ _, Nat.le_refl _⟩
  | on h op =>
    obtain ⟨H, q, s, -, -, -, -, hbrk, rfl, rfl⟩ := he
    exact ⟨by rw [← hG]; exact Function.update_of_ne (Ne.symm hg) _ _, Function.update_of_ne (Ne.symm hg) _ _, hbrk⟩
  | copy h =>
    obtain ⟨H, cs, c, -, -, -, -, -, hbrk, ⟨-, -, chains, ns, k, hw, -, -, rfl⟩ | ⟨-, calls, -, hw, -, -, -, rfl⟩⟩ := he
    · exact ⟨by rw [hw, ← hG]; exact Function.update_of_ne hnew _ _, Function.update_of_ne hnew _ _, hbrk⟩
    · exact ⟨by rw [hw, ← hG], rfl, hbrk⟩
  | num_elements h =>
    obtain ⟨H, -, -, rfl, rfl⟩ := he
    exact ⟨hG, rfl, Nat.le_refl _⟩
  | destroy h =>
    obtain ⟨H, m, calls, -, -, -, hbrk, rfl, rfl⟩ := he
    exact ⟨by rw [← hG]; exact Function.update_of_ne (Ne.symm hg) _ _, Function.update_of_ne (Ne.symm hg) _ _, hbrk⟩

/-- What a table stores, in the memory or on its own elements, whatever the
allocator has handed out since. -/
theorem Owned.entry_eq (ho : Owned w own) {g : Nat} {G : Handle} (hG : w.tables g = some G) {b : Ptr} (hb : w.mem.brk ≤ b) :
    (G.on (own g) b).assoc.entry = (G.at w.mem).assoc.entry := by
  obtain ⟨a, cs, hsim⟩ := ho.table g G hG
  rw [ho.at_eq g G, St.beside, hsim.rep.entry_beside]
  exact hsim.rep.entry_grow hb

theorem WEffect.entry_frame (ho : Owned w own) (ho' : Owned w' own') (he : WEffect fns w w' own own' r op) {g : Nat}
    (hg : ¬ op.actsOn g) {G : Handle} (hG : w.tables g = some G) :
    w'.tables g = some G ∧ (G.at w'.mem).assoc.entry = (G.at w.mem).assoc.entry := by
  obtain ⟨hG', hown, hbrk⟩ := he.frame ho hg hG
  refine ⟨hG', ?_⟩
  rw [← ho.entry_eq hG hbrk, ← ho'.entry_eq hG' (Nat.le_refl _), hown]

/-- `r_assoc_fetch` on a table reads its entry. -/
theorem Owned.fetch_eq (ho : Owned w own) {g : Nat} {G : Handle} (hG : w.tables g = some G) (key : Bytes) :
    w.fetch g key = some (match (G.at w.mem).assoc.get key with
      | some d => .ok d
      | none => .error .R_NOT_FOUND) := by
  obtain ⟨a, cs, hsim⟩ := ho.table g G hG
  rw [World.fetch, hG, Option.bind_some, ho.at_eq g G, r_assoc.get, St.beside, hsim.rep.entry_beside]
  exact fetch_beside (hsim.rep.fetch_eq key)

end

end Nrappkit.Assoc
