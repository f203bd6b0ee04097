import Mathlib.Data.Set.Card
import Nrappkit.Assoc.World
import Nrappkit.Lib.Runs
/-!
# The element count

`r_assoc_num_elements` reads a counter that every operation keeps by hand.
`Counted` says that it is the number of keys, as far as 32 bits can tell. An
insert that replaces a key counts it once more; every other call keeps the
counter right, so the counters of all tables are right throughout exactly when
no insert replaces a key.
-/
open Lib DLink

namespace Nrappkit.Assoc

variable {δ : Type}

/-- The keys a table stores. -/
def r_assoc.keys (t : r_assoc δ) : Set Bytes := {k | (t.entry k).isSome = true}

/-- `r_assoc_num_elements` returns the number of keys of every table, modulo
`2^32`. -/
def World.Exact (w : World δ) : Prop :=
  ∀ h H, w.tables h = some H →
    r_assoc_num_elements (H.at w.mem).assoc % 2 ^ 32 = ((H.at w.mem).assoc.keys.ncard : Int) % 2 ^ 32

/-- The call is an insert that replaces a key of its table. -/
def Replaces (w : World δ) : WOp δ → Prop
  | .on h (.insert key _ _ _ .R_ASSOC_REPLACE) => ∃ H, w.tables h = some H ∧ key ∈ (H.at w.mem).assoc.keys
  | _ => False

/-- The counter is the number of keys. -/
def Counted (t : r_assoc δ) : Prop := t.num_elements = UInt32.ofNat t.keys.ncard

theorem num_elements_emod {t : r_assoc δ} {n : Nat} :
    r_assoc_num_elements t % 2 ^ 32 = (n : Int) % 2 ^ 32 ↔ t.num_elements = UInt32.ofNat n := by
  have hnum : r_assoc_num_elements t % 2 ^ 32 = (t.num_elements.toNat : Int) := by
    have hbmod : r_assoc_num_elements t = Int.bmod t.num_elements.toNat (2 ^ 32) := BitVec.toInt_eq_toNat_bmod _
    have hlt := t.num_elements.toNat_lt
    have hemod := Int.bmod_emod (x := (t.num_elements.toNat : Int)) (m := 2 ^ 32)
    rw [hbmod]
    omega
  rw [hnum, ← UInt32.toNat_inj, UInt32.toNat_ofNat']
  omega

theorem exact_iff {w : World δ} : w.Exact ↔ ∀ h H, w.tables h = some H → Counted (H.at w.mem).assoc :=
  forall_congr' fun _ => forall_congr' fun _ => forall_congr' fun _ => num_elements_emod

/-! ## Keys -/

section
variable {t t' : r_assoc δ} {cs : Nat → List Ptr}

theorem mem_keys_iff {k : Bytes} : k ∈ t.keys ↔ (t.entry k).isSome = true := Iff.rfl

theorem Rep.mem_keys (h : Rep t cs) {k : Bytes} : k ∈ t.keys ↔ ∃ a e, t.heap a = some e ∧ e.key = k := by
  rw [mem_keys_iff, Option.isSome_iff_exists]
  constructor
  · rintro ⟨x, hx⟩
    obtain ⟨a, e, he, hb⟩ := h.entry_eq_some.1 hx
    exact ⟨a, e, he, congrArg Prod.fst hb⟩
  · rintro ⟨a, e, he, rfl⟩
    exact ⟨_, h.entry_eq_some.2 ⟨a, e, he, rfl⟩⟩

theorem Rep.keys_finite (h : Rep t cs) : t.keys.Finite := by
  refine ((Set.finite_lt_nat t.brk).image fun a => ((t.heap a).map (·.key)).getD []).subset fun k hk => ?_
  obtain ⟨a, e, he, rfl⟩ := h.mem_keys.1 hk
  exact ⟨a, h.fresh a e he, by simp [he]⟩

theorem keys_update {key : Bytes} {x : δ × Option FnPtr × Option FnPtr}
    (he : t'.entry = Function.update t.entry key (some x)) : t'.keys = insert key t.keys := by
  ext k
  rw [mem_keys_iff, he, Set.mem_insert_iff, mem_keys_iff]
  by_cases hk : k = key <;> simp [hk]

theorem keys_erase {key : Bytes} (he : t'.entry = Function.update t.entry key none) : t'.keys = t.keys \ {key} := by
  ext k
  rw [mem_keys_iff, he, Set.mem_sdiff, Set.mem_singleton_iff, mem_keys_iff]
  by_cases hk : k = key <;> simp [hk]

/-! ## One call -/

/-- A key is added. -/
theorem Counted.add (hr : Rep t cs) (hc : Counted t) {key : Bytes} (hk : t.entry key = none)
    {x : δ × Option FnPtr × Option FnPtr} (he : t'.entry = Function.update t.entry key (some x))
    (hn : t'.num_elements = t.num_elements + 1) : Counted t' := by
  have hnew : key ∉ t.keys := by simp [mem_keys_iff, hk]
  rw [Counted, hn, keys_update he, Set.ncard_insert_of_notMem hnew hr.keys_finite, UInt32.ofNat_add, hc]
  rfl

/-- A key is removed. -/
theorem Counted.remove (hr : Rep t cs) (hc : Counted t) {key : Bytes} {x : δ × Option FnPtr × Option FnPtr}
    (hk : t.entry key = some x) (he : t'.entry = Function.update t.entry key none)
    (hn : t'.num_elements = t.num_elements - 1) : Counted t' := by
  have hmem : key ∈ t.keys := by simp [mem_keys_iff, hk]
  have hpos : 1 ≤ t.keys.ncard := (Set.ncard_pos hr.keys_finite).2 ⟨key, hmem⟩
  rw [Counted, hn, keys_erase he, Set.ncard_sdiff_singleton_of_mem hmem, UInt32.ofNat_sub hpos, hc]
  rfl

/-- A key is replaced: the counter is one too high. -/
theorem Counted.replace (hc : Counted t) {key : Bytes} (hk : key ∈ t.keys) {x : δ × Option FnPtr × Option FnPtr}
    (he : t'.entry = Function.update t.entry key (some x)) (hn : t'.num_elements = t.num_elements + 1) : ¬ Counted t' := by
  rw [Counted, hn, keys_update he, Set.insert_eq_of_mem hk, ← hc]
  intro heq
  simp at heq

/-- A copy has the keys of its source. -/
theorem Built.keys_eq {ns : Nat → List Ptr} {m m' : Mem δ} {chains : Nat → Option Ptr} {k : Nat}
    {c : Int × List (r_assoc_el δ) × List (CopyCall δ)} {calls : List (FnPtr × δ)} (hr : Rep t cs)
    (hheap : ∀ j, ∀ a ∈ cs j, m.heap a = t.heap a) (h0 : c.1 = 0) (h : Built m m' cs ns chains t.size 0 k c calls) :
    (newTable t m m' chains).keys = t.keys := by
  have hnew := h.rep hr hheap h0
  ext key
  rw [hnew.mem_keys, hr.mem_keys]
  constructor
  · rintro ⟨b, e', he', rfl⟩
    obtain ⟨j, hb⟩ := hnew.allocated b e' he'
    obtain ⟨i, e, hi, -, he, hk⟩ := h.twin_of hheap h0 hb he'
    exact ⟨_, e, he, hk.symm⟩
  · rintro ⟨a, e, he, rfl⟩
    exact h.twin_to hr hheap h0 he

end

/-- A call on a table keeps its counter right, unless it replaces a key. -/
theorem counted_step {s s' : St δ} {a : Abs δ} {cs : Nat → List Ptr} (h : Sim s a cs) {op : Op δ} (hl : legal s op) {r : Ret δ}
    (hst : step s op = some (r, s')) (hc : Counted s.assoc) :
    Counted s'.assoc ↔ ¬ ∃ key d copy destroy, op = .insert key d copy destroy .R_ASSOC_REPLACE ∧ key ∈ s.assoc.keys := by
  constructor
  · rintro hc' ⟨key, d, copy, destroy, rfl, hk⟩
    obtain ⟨x, hx⟩ := Option.isSome_iff_exists.1 hk
    obtain ⟨t', hi, -, he, hn, -⟩ := h.rep.insert_replace hx d copy destroy
    simp only [step, hi, Option.map_some, Option.some.injEq, Prod.mk.injEq] at hst
    obtain ⟨-, rfl⟩ := hst
    exact hc.replace hk he hn hc'
  · intro hno
    rcases step_cases h hl hst with hsame | ⟨-, -, ⟨key, x, hk, he, hn⟩ | ⟨key, d, copy, destroy, rfl, hk, -⟩ | ⟨key, x, hk, he, hn⟩⟩
    · rw [hsame]
      exact hc
    · exact hc.add h.rep hk he hn
    · exact absurd ⟨key, d, copy, destroy, rfl, hk⟩ hno
    · exact hc.remove h.rep hk he hn

/-! ## All tables -/

section
variable {w w' : World δ} {own own' : Nat → Heap (r_assoc_el δ)} {fns : CopyFns δ} {op : WOp δ} {r : WRet δ}

theorem counted_congr {t t' : r_assoc δ} (hn : t'.num_elements = t.num_elements) (he : t'.entry = t.entry) :
    Counted t' ↔ Counted t := by
  rw [Counted, Counted, r_assoc.keys, r_assoc.keys, hn, he]

/-- The counter of a table that the call is not made on stays right. -/
theorem WEffect.counted (ho : Owned w own) (ho' : Owned w' own') (he : WEffect fns w w' own own' r op) {g : Nat}
    (hg : ¬ op.actsOn g) {G : Handle} (hG : w.tables g = some G) (hc : Counted (G.at w.mem).assoc) :
    Counted (G.at w'.mem).assoc := by
  have hiff : Counted (G.at w'.mem).assoc ↔ Counted (G.at w.mem).assoc :=
    counted_congr rfl (he.entry_frame ho ho' hg hG).2
  exact hiff.2 hc

/-- The counter of a table, in the memory or on its own elements. -/
theorem Owned.counted (ho : Owned w own) {g : Nat} {G : Handle} (hG : w.tables g = some G) :
    Counted (G.at w.mem).assoc ↔ Counted (G.on (own g) w.mem.brk).assoc :=
  counted_congr rfl (ho.entry_eq hG (Nat.le_refl _)).symm

theorem start_counted (hash_func : Bytes → Nat → Nat) (bits : Nat) {m : Mem δ} :
    Counted ((start hash_func bits : St δ).handle.at m).assoc := by
  have hkeys : ((start hash_func bits : St δ).handle.at m).assoc.keys = ∅ := by
    ext k
    rw [mem_keys_iff, r_assoc.entry, r_assoc_fetch_bucket,
      show ((start hash_func bits : St δ).handle.at m).assoc.chains _ = none from rfl]
    simp [fetch_loop]
  rw [Counted, hkeys, Set.ncard_empty]
  rfl

/-- Every call returns, and keeps the counters right unless it replaces a key. -/
theorem exact_step (fns : CopyFns δ) (hw : w.Ok) (hx : w.Exact) (hl : wlegal w op) :
    ∃ r w', wstep fns w op = some (r, w') ∧ w'.Ok ∧ (w'.Exact ↔ ¬ Replaces w op) := by
  obtain ⟨own, ho⟩ := hw
  obtain ⟨r, w', own', hst, ho', heff⟩ := wstep_owned fns ho hl
  refine ⟨r, w', hst, ⟨own', ho'⟩, ?_⟩
  rw [exact_iff] at hx ⊢
  have hother : ∀ {g G}, ¬ op.actsOn g → w.tables g = some G → Counted (G.at w'.mem).assoc := fun hg hG =>
    heff.counted ho ho' hg hG (hx _ _ hG)
  cases op with
  | create hash_func bits =>
    obtain ⟨-, rfl, -⟩ := heff
    refine iff_of_true (fun g G hG => ?_) id
    rcases update_some hG with ⟨rfl, hT⟩ | ⟨-, hT⟩
    · cases hT
      exact start_counted hash_func bits
    · exact hother id hT
  | on h op =>
    obtain ⟨H, q, s, hH, hl', hst', -, -, rfl, rfl⟩ := heff
    obtain ⟨a, cs, hsim⟩ := ho.table h H hH
    have hiff := counted_step hsim hl' hst' ((ho.counted hH).1 (hx h H hH))
    have hG : Function.update w.tables h (some s.handle) h = some s.handle := Function.update_self ..
    -- The table alone, and in the memory.
    have hnew := ho'.counted hG
    rw [Function.update_self] at hnew
    have hkeys : (H.on (own h) w.mem.brk).assoc.keys = (H.at w.mem).assoc.keys := by
      rw [r_assoc.keys, r_assoc.keys, ho.entry_eq hH (Nat.le_refl _)]
    rw [hkeys] at hiff
    constructor
    · rintro hall
      have hs := hiff.1 (hnew.1 (hall h _ hG))
      rintro hrep
      cases op with
      | insert key d copy destroy how =>
        cases how with
        | R_ASSOC_NEW => exact hrep
        | R_ASSOC_REPLACE =>
          obtain ⟨H', hH', hk⟩ := hrep
          rw [hH] at hH'
          cases hH'
          exact hs ⟨key, d, copy, destroy, rfl, hk⟩
      | delete _ | fetch _ | init_iter | iter | iter_delete => exact hrep
    · intro hno g G hG'
      rcases update_some hG' with ⟨rfl, hT⟩ | ⟨hg, hT⟩
      · cases hT
        refine hnew.2 (hiff.2 ?_)
        rintro ⟨key, d, copy, destroy, rfl, hk⟩
        exact hno ⟨H, hH, hk⟩
      · exact hother (Ne.symm hg) hT
  | copy h =>
    refine iff_of_true (fun g G hG => ?_) id
    obtain ⟨H, cs, c, hH, hrep, -, hsame, -, -, hres⟩ := heff
    rcases hres with ⟨h0, -, chains, ns, k, hw', hbuilt, -, hown'⟩ | ⟨-, calls, -, hw', -⟩
    · have htab : w'.tables = Function.update w.tables w.next (some (H.copy chains w'.mem)) := by rw [hw']
      rw [htab] at hG
      rcases update_some hG with ⟨rfl, hT⟩ | ⟨-, hT⟩
      · cases hT
        have hnew : w'.tables w.next = some (H.copy chains w'.mem) := by rw [htab, Function.update_self]
        rw [ho'.counted hnew, hown', Function.update_self, Counted]
        have hkeys := hbuilt.keys_eq hrep hsame h0
        have hc : H.num_elements = UInt32.ofNat (H.on (own h) w.mem.brk).assoc.keys.ncard := (ho.counted hH).1 (hx h H hH)
        rw [← hkeys] at hc
        exact hc
      · exact hother id hT
    · rw [hw'] at hG
      exact hother id hG
  | num_elements h =>
    obtain ⟨-, -, -, rfl, -⟩ := heff
    exact iff_of_true hx id
  | destroy h =>
    obtain ⟨H, m, calls, -, -, -, -, rfl, -⟩ := heff
    refine iff_of_true (fun g G hG => ?_) id
    rcases update_some hG with ⟨-, hT⟩ | ⟨hg, hT⟩
    · cases hT
    · exact hother (Ne.symm hg) hT

end

/-- For every sequence of calls from the empty memory, with any copy functions:
`r_assoc_num_elements` is right about every table all the time if and only if
no insert replaces a key. -/
theorem num_elements_exact_iff (fns : CopyFns δ) (ops : List (WOp δ)) :
    Throughout (wstep fns) wlegal World.Exact World.empty ops ↔
      Each (wstep fns) wlegal (fun w op => ¬ Replaces w op) World.empty ops := by
  refine throughout_iff_each (I := World.Ok) (fun w op hw hx hl => exact_step fns hw hx hl) ⟨_, owned_empty⟩ ?_ ops
  intro h H hH
  cases hH

/-- The keys of a table with one element. -/
theorem keys_single {t : r_assoc δ} {a : Ptr} {e : r_assoc_el δ} {n : Nat} (hchain : ∀ k, t.chains (t.hash k) = some a)
    (he : t.heap a = some e) (hnext : e.next = none) (hbrk : t.brk = n + 1) : t.keys = {e.key} := by
  ext k
  rw [mem_keys_iff, Set.mem_singleton_iff, r_assoc.entry, r_assoc_fetch_bucket, hchain, hbrk]
  by_cases hk : e.key = k
  · simp [fetch_loop, he, hk]
  · simp [fetch_loop, he, hk, hnext, Ne.symm hk]

/-- A key is inserted, and inserted again in its place: the table has one key
and the counter is 2. -/
theorem num_elements_not_exact : ¬ ∀ (fns : CopyFns Nat) (ops : List (WOp Nat)),
    Throughout (wstep fns) wlegal World.Exact World.empty ops := by
  intro h
  have hall := h (fun _ _ d => (0, d)) [.create (fun _ _ => 0) 0, .on 0 (.insert [1] 10 none none .R_ASSOC_REPLACE),
    .on 0 (.insert [1] 11 none none .R_ASSOC_REPLACE)]
  have hone := ((hall.2 (fun _ => Nat.one_pos) _ _ rfl).2 ⟨_, rfl, rfl⟩ _ _ rfl).2 ⟨_, rfl, rfl⟩ _ _ rfl
  have hexact := hone 0 _ rfl
  rw [keys_single (a := 0) (n := 0) (fun _ => rfl) rfl rfl rfl, Set.ncard_singleton] at hexact
  exact absurd hexact (by decide)

end Nrappkit.Assoc
