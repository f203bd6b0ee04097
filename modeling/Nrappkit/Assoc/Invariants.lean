import Nrappkit.Assoc.Table
import Mathlib.Data.List.Perm.Subperm
/-!
# What an `r_assoc` looks like in memory

`Rep t cs` says that chain `i` of the table `t` is the doubly linked list of
the elements `cs i`, that the chains hold every allocated element, each under
its key's hash, and that no key occurs twice. Every operation takes a
represented table to a represented one; its effect is stated on `get`, the
finite map the table stands for.
-/
open Lib DLink

namespace Nrappkit.Assoc

variable {δ : Type}

/-- The representation invariant: the chains of `t` are `cs`. -/
structure Rep (t : r_assoc δ) (cs : Nat → List Ptr) : Prop where
  hash_lt : ∀ k, t.hash k < t.size
  seg : ∀ i < t.size, Seg t.heap none (t.chains i) (cs i) none
  nodup : ∀ i, (cs i).Nodup
  range : ∀ i, t.size ≤ i → cs i = []
  allocated : ∀ a e, t.heap a = some e → ∃ i, a ∈ cs i
  hashed : ∀ i a e, a ∈ cs i → t.heap a = some e → t.hash e.key = i
  keys : ∀ a b e e', t.heap a = some e → t.heap b = some e' → e.key = e'.key → a = b
  fresh : ∀ a e, t.heap a = some e → a < t.brk

/-- The table satisfies its representation invariant. -/
def Inv (t : r_assoc δ) : Prop := ∃ cs, Rep t cs

/-- What the table stores under a key: the datum and its two functions. -/
def r_assoc.entry (t : r_assoc δ) (key : Bytes) : Option (δ × Option FnPtr × Option FnPtr) :=
  match r_assoc_fetch_bucket t key with
  | some (some a) => (t.heap a).map fun e => (e.data, e.copy, e.destroy)
  | _ => none

/-- The finite map the table stands for. -/
def r_assoc.get (t : r_assoc δ) (key : Bytes) : Option δ := (t.entry key).map (·.1)

namespace Rep
variable {t : r_assoc δ} {cs : Nat → List Ptr}

theorem lt_size (h : Rep t cs) {i : Nat} {a : Ptr} (ha : a ∈ cs i) : i < t.size := by
  by_contra hi
  rw [h.range i (by omega)] at ha
  cases ha

theorem live (h : Rep t cs) {i : Nat} {a : Ptr} (ha : a ∈ cs i) : ∃ e, t.heap a = some e :=
  (h.seg i (h.lt_size ha)).live ha

theorem mem_hash (h : Rep t cs) {a : Ptr} {e : r_assoc_el δ} (he : t.heap a = some e) :
    a ∈ cs (t.hash e.key) := by
  obtain ⟨i, hi⟩ := h.allocated a e he
  rwa [h.hashed i a e hi he]

/-- An element lies in one chain only. -/
theorem chain_unique (h : Rep t cs) {i j : Nat} {a : Ptr} (hi : a ∈ cs i) (hj : a ∈ cs j) : i = j := by
  obtain ⟨e, he⟩ := h.live hi
  rw [← h.hashed i a e hi he, h.hashed j a e hj he]

/-! ## Fetch -/

/-- The loop on a chain finds the first element with the key. -/
theorem fetch_loop_seg {heap : Heap (r_assoc_el δ)} {p hd : Option Ptr} {l : List Ptr} (key : Bytes)
    (hs : Seg heap p hd l none) {n : Nat} (hn : l.length ≤ n) :
    fetch_loop heap key n hd = some (l.find? fun a => (heap a).any (·.key = key)) := by
  induction l generalizing p hd n with
  | nil =>
    have : hd = none := hs
    subst this
    simp [fetch_loop]
  | cons a l ih =>
    obtain ⟨rfl, e, he, -, hs⟩ := hs
    obtain ⟨n, rfl, hle⟩ := fuel_cons hn
    simp only [fetch_loop, he, Option.bind_eq_bind, Option.bind_some, List.find?_cons, Option.any_some]
    by_cases hk : e.key = key
    · simp [hk]
    · simp only [hk, if_false, decide_false]
      exact ih hs hle

theorem length_le (h : Rep t cs) (i : Nat) : (cs i).length ≤ t.brk := by
  refine length_le_of_lt (h.nodup i) fun a ha => ?_
  obtain ⟨e, he⟩ := h.live ha
  exact h.fresh a e he

theorem fetch_bucket_eq (h : Rep t cs) (key : Bytes) :
    r_assoc_fetch_bucket t key = some ((cs (t.hash key)).find? fun a => (t.heap a).any (·.key = key)) :=
  fetch_loop_seg key (h.seg _ (h.hash_lt key)) (h.length_le _)

/-- A key is found at its element. -/
theorem fetch_bucket_some (h : Rep t cs) {a : Ptr} {e : r_assoc_el δ} (he : t.heap a = some e) :
    r_assoc_fetch_bucket t e.key = some (some a) := by
  rw [h.fetch_bucket_eq]
  cases hf : (cs (t.hash e.key)).find? fun a => (t.heap a).any (·.key = e.key) with
  | none =>
    rw [List.find?_eq_none] at hf
    exact absurd (by simp [he]) (hf a (h.mem_hash he))
  | some b =>
    have hb := List.find?_some hf
    obtain ⟨e', he'⟩ := h.live (List.mem_of_find?_eq_some hf)
    simp only [he', Option.any_some, decide_eq_true_eq] at hb
    rw [h.keys b a e' e he' he hb]

/-- A key that no element has is not found. -/
theorem fetch_bucket_none (h : Rep t cs) {key : Bytes} (hk : ∀ a e, t.heap a = some e → e.key ≠ key) :
    r_assoc_fetch_bucket t key = some none := by
  rw [h.fetch_bucket_eq]
  congr 1
  rw [List.find?_eq_none]
  intro a ha
  obtain ⟨e, he⟩ := h.live ha
  simpa [he] using hk a e he

/-- Every key is at one element or at none. -/
theorem bucket_cases (h : Rep t cs) (key : Bytes) :
    (∃ a e, t.heap a = some e ∧ e.key = key ∧ r_assoc_fetch_bucket t key = some (some a)) ∨
      ((∀ a e, t.heap a = some e → e.key ≠ key) ∧ r_assoc_fetch_bucket t key = some none) := by
  by_cases hk : ∃ a e, t.heap a = some e ∧ e.key = key
  · obtain ⟨a, e, he, rfl⟩ := hk
    exact .inl ⟨a, e, he, rfl, h.fetch_bucket_some he⟩
  · have hk' : ∀ a e, t.heap a = some e → e.key ≠ key := fun a e he hek => hk ⟨a, e, he, hek⟩
    exact .inr ⟨hk', h.fetch_bucket_none hk'⟩

theorem entry_eq_some (h : Rep t cs) {key : Bytes} {x : δ × Option FnPtr × Option FnPtr} :
    t.entry key = some x ↔ ∃ a e, t.heap a = some e ∧ body e = (key, x) := by
  rcases h.bucket_cases key with ⟨a, e, he, rfl, hb⟩ | ⟨hk, hb⟩
  · have hg : t.entry e.key = some (e.data, e.copy, e.destroy) := by simp [r_assoc.entry, hb, he]
    rw [hg]
    constructor
    · intro hx
      cases hx
      exact ⟨a, e, he, rfl⟩
    · rintro ⟨b, e', he', hbody⟩
      simp only [body, Prod.mk.injEq] at hbody
      obtain rfl := h.keys b a e' e he' he hbody.1
      rw [he] at he'
      cases he'
      rw [hbody.2]
  · have hg : t.entry key = none := by simp [r_assoc.entry, hb]
    rw [hg]
    constructor
    · intro hx
      cases hx
    · rintro ⟨b, e', he', hbody⟩
      exact absurd (congrArg Prod.fst hbody) (hk b e' he')

theorem entry_eq_none (h : Rep t cs) {key : Bytes} :
    t.entry key = none ↔ ∀ a e, t.heap a = some e → e.key ≠ key := by
  constructor
  · intro hg a e he hk
    have := h.entry_eq_some.2 ⟨a, e, he, (by rw [← hk]; rfl : body e = (key, e.data, e.copy, e.destroy))⟩
    rw [hg] at this
    cases this
  · intro hk
    cases hg : t.entry key with
    | none => rfl
    | some d =>
      obtain ⟨a, e, he, hbody⟩ := h.entry_eq_some.1 hg
      exact absurd (congrArg Prod.fst hbody) (hk a e he)

theorem get_eq_some (h : Rep t cs) {key : Bytes} {d : δ} :
    t.get key = some d ↔ ∃ a e, t.heap a = some e ∧ e.key = key ∧ e.data = d := by
  simp only [r_assoc.get, Option.map_eq_some_iff, h.entry_eq_some]
  constructor
  · rintro ⟨x, ⟨a, e, he, hbody⟩, rfl⟩
    simp only [body, Prod.mk.injEq] at hbody
    exact ⟨a, e, he, hbody.1, by rw [← hbody.2]⟩
  · rintro ⟨a, e, he, rfl, rfl⟩
    exact ⟨_, ⟨a, e, he, rfl⟩, rfl⟩

/-- `r_assoc_fetch` always returns, with the datum of the map. -/
theorem fetch_eq (h : Rep t cs) (key : Bytes) :
    r_assoc_fetch t key = some (match t.get key with
      | some d => .ok d
      | none => .error .R_NOT_FOUND) := by
  rcases h.bucket_cases key with ⟨a, e, he, rfl, hb⟩ | ⟨hk, hb⟩
  · simp [r_assoc.get, r_assoc.entry, r_assoc_fetch, hb, he]
  · simp [r_assoc.get, r_assoc.entry, r_assoc_fetch, hb]

/-- Two represented tables with the same elements up to links, except for the
element at `a`, agree on every key but that element's. -/
theorem entry_of_bodies {t' : r_assoc δ} {cs' : Nat → List Ptr} (h : Rep t cs) (h' : Rep t' cs') {a : Ptr}
    (hb : ∀ x, x ≠ a → (t'.heap x).map body = (t.heap x).map body) {key k : Bytes}
    (ha : ∀ e, t.heap a = some e → e.key = key) (ha' : ∀ e, t'.heap a = some e → e.key = key) (hk : k ≠ key) :
    t'.entry k = t.entry k := by
  apply Option.ext
  intro x
  rw [h.entry_eq_some, h'.entry_eq_some]
  constructor
  · rintro ⟨b, e, he, hbe⟩
    have hne : b ≠ a := by
      rintro rfl
      exact hk ((congrArg Prod.fst hbe).symm.trans (ha' e he))
    obtain ⟨e₁, he₁, hb₁⟩ := some_of_map_eq (hb b hne).symm he
    exact ⟨b, e₁, he₁, hb₁.trans hbe⟩
  · rintro ⟨b, e, he, hbe⟩
    have hne : b ≠ a := by
      rintro rfl
      exact hk ((congrArg Prod.fst hbe).symm.trans (ha e he))
    obtain ⟨e₁, he₁, hb₁⟩ := some_of_map_eq (hb b hne) he
    exact ⟨b, e₁, he₁, hb₁.trans hbe⟩

/-! ## Insert and delete -/

theorem body_eq {e e' : r_assoc_el δ} (h : body e' = body e) :
    e'.key = e.key ∧ e'.data = e.data ∧ e'.copy = e.copy ∧ e'.destroy = e.destroy := by
  simpa [body] using h

/-- Hooking a new element in front of its chain. -/
theorem insert_new (h : Rep t cs) {key : Bytes} (hk : ∀ a e, t.heap a = some e → e.key ≠ key)
    (d : δ) (copy destroy : Option FnPtr) (how : How) :
    ∃ t', r_assoc_insert t key d copy destroy how = some (.ok, t', []) ∧
      Rep t' (Function.update cs (t.hash key) (t.brk :: cs (t.hash key))) ∧
      (∃ e, t'.heap t.brk = some e ∧ body e = (key, d, copy, destroy)) ∧
      (∀ x, x ≠ t.brk → (t'.heap x).map body = (t.heap x).map body) ∧
      t'.num_elements = t.num_elements + 1 ∧ t'.bits = t.bits ∧ t'.hash_func = t.hash_func ∧
      t'.brk = t.brk + 1 := by
  have hnb : ∀ i, t.brk ∉ cs i := by
    intro i hi
    obtain ⟨e, he⟩ := h.live hi
    exact absurd (h.fresh _ e he) (Nat.lt_irrefl _)
  obtain ⟨heap', hw, hs, ⟨e₀, he₀, hb₀⟩, hb, hf⟩ := (h.seg _ (h.hash_lt key)).hookFront
    { key, data := d, copy, destroy : r_assoc_el δ } (h.nodup _) (hnb (t.hash key))
  refine ⟨{ t with
      heap := heap', brk := t.brk + 1
      chains := Function.update t.chains (t.hash key) (some t.brk)
      num_elements := t.num_elements + 1 },
    by simp [r_assoc_insert, h.fetch_bucket_none hk, hw], ?_, ⟨e₀, he₀, hb₀⟩, hb, rfl, rfl, rfl, rfl⟩
  -- Each element of the new heap is the new one, or an old one up to its links.
  have hcases : ∀ a e, heap' a = some e → (a = t.brk ∧ e.key = key) ∨
      (a ≠ t.brk ∧ ∃ e₁, t.heap a = some e₁ ∧ e.key = e₁.key) := by
    intro a e he
    by_cases ha : a = t.brk
    · subst ha
      rw [he₀] at he
      cases he
      exact .inl ⟨rfl, (body_eq hb₀).1⟩
    · obtain ⟨e₁, he₁, hbe⟩ := some_of_map_eq (hb a ha).symm he
      exact .inr ⟨ha, e₁, he₁, (body_eq hbe.symm).1⟩
  constructor
  · exact h.hash_lt
  · intro i hi
    by_cases hi' : i = t.hash key
    · subst hi'
      simpa using hs
    · have hseg := h.seg i hi
      simp only [Function.update_of_ne hi']
      refine hseg.frame fun a ha => hf a ?_ fun ha' => hi' (h.chain_unique ha ha')
      rintro rfl
      exact hnb i ha
  · intro i
    by_cases hi : i = t.hash key
    · subst hi
      simpa using ⟨hnb _, h.nodup _⟩
    · simpa [Function.update_of_ne hi] using h.nodup i
  · intro i hi
    have hne : i ≠ t.hash key := by
      rintro rfl
      exact absurd (h.hash_lt key) (Nat.not_lt.2 hi)
    simpa [Function.update_of_ne hne] using h.range i hi
  · intro a e he
    rcases hcases a e he with ⟨rfl, -⟩ | ⟨-, e₁, he₁, -⟩
    · exact ⟨t.hash key, by simp⟩
    · obtain ⟨i, hi⟩ := h.allocated a e₁ he₁
      refine ⟨i, ?_⟩
      by_cases hi' : i = t.hash key
      · subst hi'
        simp [hi]
      · simpa [Function.update_of_ne hi'] using hi
  · intro i a e ha he
    rcases hcases a e he with ⟨rfl, hek⟩ | ⟨hne, e₁, he₁, hek⟩
    · by_cases hi : i = t.hash key
      · subst hi
        exact congrArg (fun k => t.hash_func k t.bits) hek
      · rw [Function.update_of_ne hi] at ha
        exact absurd ha (hnb i)
    · have ha' : a ∈ cs i := by
        by_cases hi : i = t.hash key
        · subst hi
          simpa [hne] using ha
        · simpa [Function.update_of_ne hi] using ha
      rw [← h.hashed i a e₁ ha' he₁, hek]
      rfl
  · intro a b e e' he he' hkk
    rcases hcases a e he with ⟨rfl, hek⟩ | ⟨-, e₁, he₁, hek⟩ <;>
      rcases hcases b e' he' with ⟨rfl, hek'⟩ | ⟨-, e₂, he₂, hek'⟩
    · rfl
    · exact absurd (by rw [← hek', ← hkk, hek]) (hk b e₂ he₂)
    · exact absurd (by rw [← hek, hkk, hek']) (hk a e₁ he₁)
    · exact h.keys a b e₁ e₂ he₁ he₂ (by rw [← hek, hkk, hek'])
  · intro a e he
    rcases hcases a e he with ⟨rfl, -⟩ | ⟨-, e₁, he₁, -⟩
    · exact Nat.lt_succ_self _
    · exact Nat.lt_succ_of_lt (h.fresh a e₁ he₁)

/-- Changing the datum and the functions of an element in place. -/
theorem modify (h : Rep t cs) {a : Ptr} {e : r_assoc_el δ} (he : t.heap a = some e) (d : δ)
    (copy destroy : Option FnPtr) (n : UInt32) :
    Rep { t with heap := Function.update t.heap a (some { e with data := d, copy := copy, destroy := destroy }),
                 num_elements := n } cs := by
  have hcases : ∀ b e', Function.update t.heap a (some { e with data := d, copy := copy, destroy := destroy }) b =
      some e' → ∃ e₁, t.heap b = some e₁ ∧ e'.key = e₁.key := by
    intro b e' he'
    by_cases hb : b = a
    · subst hb
      rw [Function.update_self, Option.some.injEq] at he'
      exact ⟨e, he, by rw [← he']⟩
    · rw [Function.update_of_ne hb] at he'
      exact ⟨e', he', rfl⟩
  refine { h with seg := fun i hi => ?_, allocated := fun b e' he' => ?_, hashed := fun i b e' hb he' => ?_,
                  keys := fun b c e₁ e₂ h1 h2 hk => ?_, fresh := fun b e' he' => ?_ }
  · exact (h.seg i hi).congr (by
      intro b
      by_cases hb : b = a
      · subst hb
        simp [he, prev, next]
      · simp [Function.update_of_ne hb])
  · obtain ⟨e₁, he₁, -⟩ := hcases b e' he'
    exact h.allocated b e₁ he₁
  · obtain ⟨e₁, he₁, hk⟩ := hcases b e' he'
    rw [hk]
    exact h.hashed i b e₁ hb he₁
  · obtain ⟨e₁', h1', hk1⟩ := hcases b e₁ h1
    obtain ⟨e₂', h2', hk2⟩ := hcases c e₂ h2
    exact h.keys b c e₁' e₂' h1' h2' (by rw [← hk1, hk, hk2])
  · obtain ⟨e₁, he₁, -⟩ := hcases b e' he'
    exact h.fresh b e₁ he₁

/-- Releasing an element of a chain. -/
theorem release (h : Rep t cs) {i : Nat} {p : Ptr} (hp : p ∈ cs i) :
    ∃ t' e, t.heap p = some e ∧ t.release i p = some (t', e.destroyCall) ∧
      Rep t' (fun j => (cs j).erase p) ∧ t'.heap p = none ∧
      (∀ x, x ≠ p → (t'.heap x).map body = (t.heap x).map body) ∧
      t'.num_elements = t.num_elements - 1 ∧ t'.bits = t.bits ∧ t'.hash_func = t.hash_func ∧
      t'.brk = t.brk := by
  obtain ⟨e, he⟩ := h.live hp
  obtain ⟨l₁, l₂, hl⟩ := List.append_of_mem hp
  have hn := h.nodup i
  rw [hl] at hn
  have hseg := h.seg i (h.lt_size hp)
  rw [hl] at hseg
  obtain ⟨heap', hd', hu, hs, hb, hf⟩ := hseg.unhook hn
  have hp1 : p ∉ l₁ := fun hp1 => (List.nodup_append.1 hn).2.2 p hp1 p (by simp) rfl
  have hp2 : p ∉ l₂ := (List.nodup_cons.1 (List.nodup_append.1 hn).2.1).1
  have her : (cs i).erase p = l₁ ++ l₂ := by
    rw [hl, List.erase_append_right _ hp1, List.erase_cons_head]
  have her' : ∀ j, j ≠ i → (cs j).erase p = cs j := fun j hj =>
    List.erase_of_not_mem fun hpj => hj (h.chain_unique hpj hp)
  have hcases : ∀ a e', Function.update heap' p none a = some e' →
      a ≠ p ∧ ∃ e₁, t.heap a = some e₁ ∧ e'.key = e₁.key := by
    intro a e' he'
    by_cases ha : a = p
    · subst ha
      simp at he'
    · rw [Function.update_of_ne ha] at he'
      obtain ⟨e₁, he₁, hbe⟩ := some_of_map_eq (hb a).symm he'
      exact ⟨ha, e₁, he₁, (body_eq hbe.symm).1⟩
  refine ⟨{ t with
      heap := Function.update heap' p none
      chains := Function.update t.chains i hd'
      num_elements := t.num_elements - 1 },
    e, he, by simp [r_assoc.release, he, hu], ?_, by simp, fun x hx => ?_, rfl, rfl, rfl, rfl⟩
  · constructor
    · exact h.hash_lt
    · intro j hj
      by_cases hji : j = i
      · subst hji
        rw [her]
        simp only [Function.update_self]
        refine hs.frame fun a ha => Function.update_of_ne ?_ _ _
        rintro rfl
        rcases List.mem_append.1 ha with ha | ha
        · exact hp1 ha
        · exact hp2 ha
      · rw [her' j hji]
        simp only [Function.update_of_ne hji]
        refine (h.seg j hj).frame fun a ha => ?_
        have hai : a ∉ cs i := fun hai => hji (h.chain_unique ha hai)
        rw [Function.update_of_ne (by rintro rfl; exact hai hp), hf a (by rw [← her]; exact fun h' => hai (List.mem_of_mem_erase h'))]
    · intro j
      exact (h.nodup j).erase p
    · intro j hj
      simp [h.range j hj]
    · intro a e' he'
      obtain ⟨hne, e₁, he₁, -⟩ := hcases a e' he'
      obtain ⟨j, hj⟩ := h.allocated a e₁ he₁
      exact ⟨j, (List.mem_erase_of_ne hne).2 hj⟩
    · intro j a e' ha he'
      obtain ⟨-, e₁, he₁, hk⟩ := hcases a e' he'
      rw [← h.hashed j a e₁ (List.mem_of_mem_erase ha) he₁, hk]
      rfl
    · intro a b e₁ e₂ h1 h2 hk
      obtain ⟨-, e₁', h1', hk1⟩ := hcases a e₁ h1
      obtain ⟨-, e₂', h2', hk2⟩ := hcases b e₂ h2
      exact h.keys a b e₁' e₂' h1' h2' (by rw [← hk1, hk, hk2])
    · intro a e' he'
      obtain ⟨-, e₁, he₁, -⟩ := hcases a e' he'
      exact h.fresh a e₁ he₁
  · simp only [Function.update_of_ne hx]
    exact hb x

end Rep

theorem create_rep (hash_func : Bytes → Nat → Nat) (bits : Nat) (hh : ∀ k, hash_func k bits < 2 ^ bits) :
    Rep (r_assoc_create hash_func bits : r_assoc δ) fun _ => [] where
  hash_lt := hh
  seg _ _ := rfl
  nodup _ := List.nodup_nil
  range _ _ := rfl
  allocated _ _ he := by cases he
  hashed _ _ _ ha := by cases ha
  keys _ _ _ _ he := by cases he
  fresh _ _ he := by cases he

end Nrappkit.Assoc
