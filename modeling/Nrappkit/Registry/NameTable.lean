import Nrappkit.Assoc.Crc32
import Nrappkit.Assoc.Map
import Nrappkit.Registry.Names
/-!
# Tables from names to addresses

The registry and the callback table are both an `r_assoc` that maps names to
blocks it owns. `NameTable` says so: its keys are valid names, all its entries
have one destructor, and no block is stored under two names.
-/
open Lib Nrappkit.Assoc

namespace Nrappkit.Registry

/-- The entries of `t` are blocks below `brk`, each under one valid name. -/
structure NameTable (t : r_assoc Ptr) (brk : Ptr) (destroy : FnPtr) : Prop where
  entry : ∀ k x, t.entry k = some x → x.2 = (none, some destroy) ∧ x.1 < brk ∧
    ∃ name, k = nameKey name ∧ nr_reg_is_valid name = .ok
  inj : ∀ k k' x x', t.entry k = some x → t.entry k' = some x' → x.1 = x'.1 → k = k'

/-- The table the two modules start with. -/
theorem created_rep {δ : Type} : Rep (r_assoc_create r_assoc_crc32_hash_compute 12 : r_assoc δ) fun _ => [] :=
  create_rep r_assoc_crc32_hash_compute 12 fun k => crc32_lt k 12 (by decide)

theorem created_entry {δ : Type} (k : Bytes) :
    (r_assoc_create r_assoc_crc32_hash_compute 12 : r_assoc δ).entry k = none :=
  created_rep.entry_eq_none.2 fun a e he => by cases he

namespace NameTable

theorem created (brk : Ptr) (destroy : FnPtr) :
    NameTable (r_assoc_create r_assoc_crc32_hash_compute 12) brk destroy := by
  refine ⟨fun k x hx => ?_, fun k k' x x' hx => ?_⟩
  · rw [created_entry] at hx
    cases hx
  · rw [created_entry] at hx
    cases hx

variable {t t' : r_assoc Ptr} {brk : Ptr} {destroy : FnPtr} {name : Bytes}

theorem get_some (h : NameTable t brk destroy) {p : Ptr} (hp : t.get (nameKey name) = some p) :
    t.entry (nameKey name) = some (p, none, some destroy) ∧ p < brk ∧ nr_reg_is_valid name = .ok := by
  obtain ⟨x, hx, rfl⟩ := Option.map_eq_some_iff.1 hp
  obtain ⟨hfn, hlt, n, hk, hv⟩ := h.entry _ x hx
  obtain rfl := nameKey_inj.1 hk
  exact ⟨by rw [hx, ← hfn], hlt, hv⟩

theorem get_inj (h : NameTable t brk destroy) {n n' : Bytes} {p : Ptr} (hn : t.get (nameKey n) = some p)
    (hn' : t.get (nameKey n') = some p) : n = n' :=
  nameKey_inj.1 (h.inj _ _ _ _ (h.get_some hn).1 (h.get_some hn').1 rfl)

theorem ne_brk (h : NameTable t brk destroy) {k : Bytes} {x : Ptr × Option FnPtr × Option FnPtr}
    (hx : t.entry k = some x) : x.1 ≠ brk := Nat.ne_of_lt (h.entry k x hx).2.1

/-- A new block under a valid name. -/
theorem insert (h : NameTable t brk destroy) (hv : nr_reg_is_valid name = .ok)
    (he : t'.entry = Function.update t.entry (nameKey name) (some (brk, none, some destroy))) :
    NameTable t' (brk + 1) destroy := by
  refine ⟨fun k x hx => ?_, fun k k' x x' hx hx' hxx => ?_⟩
  · rw [he] at hx
    by_cases hk : k = nameKey name
    · rw [hk, Function.update_self, Option.some.injEq] at hx
      subst hx
      exact ⟨rfl, Nat.lt_succ_self _, name, hk, hv⟩
    · rw [Function.update_of_ne hk] at hx
      obtain ⟨hfn, hlt, hname⟩ := h.entry k x hx
      exact ⟨hfn, Nat.lt_succ_of_lt hlt, hname⟩
  · rw [he] at hx hx'
    by_cases hk : k = nameKey name <;> by_cases hk' : k' = nameKey name
    · rw [hk, hk']
    · rw [hk, Function.update_self, Option.some.injEq] at hx
      rw [Function.update_of_ne hk'] at hx'
      subst hx
      exact absurd hxx.symm (h.ne_brk hx')
    · rw [hk', Function.update_self, Option.some.injEq] at hx'
      rw [Function.update_of_ne hk] at hx
      subst hx'
      exact absurd hxx (h.ne_brk hx)
    · rw [Function.update_of_ne hk] at hx
      rw [Function.update_of_ne hk'] at hx'
      exact h.inj k k' x x' hx hx' hxx

/-- A table with one key less. -/
theorem erase (h : NameTable t brk destroy) {key : Bytes} (he : t'.entry = Function.update t.entry key none) :
    NameTable t' brk destroy := by
  have hsub : ∀ k x, t'.entry k = some x → t.entry k = some x := by
    intro k x hx
    rw [he] at hx
    by_cases hk : k = key
    · simp [hk] at hx
    · rwa [Function.update_of_ne hk] at hx
  exact ⟨fun k x hx => h.entry k x (hsub k x hx),
    fun k k' x x' hx hx' => h.inj k k' x x' (hsub k x hx) (hsub k' x' hx')⟩

/-- What the names of a table with one entry changed are mapped to. -/
theorem get_entry {y : Option (Ptr × Option FnPtr × Option FnPtr)}
    (he : t'.entry = Function.update t.entry (nameKey name) y) (n : Bytes) :
    t'.get (nameKey n) = if n = name then y.map (·.1) else t.get (nameKey n) := by
  rw [get_update he]
  by_cases hn : n = name
  · rw [hn, Function.update_self, if_pos rfl]
  · rw [if_neg hn, Function.update_of_ne fun hk => hn (nameKey_inj.1 hk)]

end NameTable

end Nrappkit.Registry
