import Nrappkit.Assoc.Iter
/-!
# The table as a finite map

One lemma for each way an operation can go, stated on `entry`. Callers of the
table use these and never look at its chains.
-/
open Lib DLink

namespace Nrappkit.Assoc

variable {δ : Type}

/-- The destructor call for an entry that goes away. -/
def destroyOf (x : δ × Option FnPtr × Option FnPtr) : List (FnPtr × δ) := x.2.2.toList.map (·, x.1)

/-- The number of allocated elements. -/
def r_assoc.entries (t : r_assoc δ) : Nat := ((List.range t.brk).filter fun a => (t.heap a).isSome).length

/-- The data of a chain, for at most `n` elements. -/
def chain_data (heap : Heap (r_assoc_el δ)) : Nat → Option Ptr → List δ
  | _, none => []
  | 0, some _ => []
  | n + 1, some p => match heap p with
    | none => []
    | some el => el.data :: chain_data heap n el.next

/-- The data of the table, in the order an iterator returns them. -/
def r_assoc.elements (t : r_assoc δ) : List δ :=
  (List.range t.size).flatMap fun i => chain_data t.heap t.brk (t.chains i)

/-- Same hash function on the same number of chains. -/
def SameHash (t t' : r_assoc δ) : Prop := t'.bits = t.bits ∧ t'.hash_func = t.hash_func

theorem SameHash.size {t t' : r_assoc δ} (h : SameHash t t') : t'.size = t.size := by
  rw [r_assoc.size, r_assoc.size, h.1]

theorem SameHash.hash {t t' : r_assoc δ} (h : SameHash t t') (key : Bytes) : t'.hash key = t.hash key := by
  rw [r_assoc.hash, r_assoc.hash, h.1, h.2]

theorem SameHash.trans {t t' t'' : r_assoc δ} (h : SameHash t t') (h' : SameHash t' t'') : SameHash t t'' :=
  ⟨h'.1.trans h.1, h'.2.trans h.2⟩

/-- The elements of `t` that are still allocated in `t'` are the same ones, in
the same chains. -/
def Keeps (t : r_assoc δ) (cs : Nat → List Ptr) (t' : r_assoc δ) (cs' : Nat → List Ptr) : Prop :=
  t.brk ≤ t'.brk ∧ ∀ p < t.brk, ∀ e', t'.heap p = some e' →
    ∃ e, t.heap p = some e ∧ e.key = e'.key ∧ ∀ i, p ∈ cs i → p ∈ cs' i

theorem get_update {t t' : r_assoc δ} {key : Bytes} {x : Option (δ × Option FnPtr × Option FnPtr)}
    (h : t'.entry = Function.update t.entry key x) : t'.get = Function.update t.get key (x.map (·.1)) := by
  funext k
  simp only [r_assoc.get, h]
  by_cases hk : k = key
  · subst hk
    simp
  · simp [Function.update_of_ne hk, r_assoc.get]

theorem orderFrom_insert (cs : Nat → List Ptr) (j : Nat) (a : Ptr) (n i : Nat) (hi : i ≤ j) (hj : j < i + n) :
    ∃ l₁ l₂, orderFrom cs n i = l₁ ++ l₂ ∧ orderFrom (Function.update cs j (a :: cs j)) n i = l₁ ++ a :: l₂ := by
  have hrest : ∀ n i, j < i → orderFrom (Function.update cs j (a :: cs j)) n i = orderFrom cs n i := by
    intro n
    induction n with
    | zero => intro i _; rfl
    | succ n ih =>
      intro i hi
      rw [orderFrom_succ, orderFrom_succ, ih (i + 1) (by omega), Function.update_of_ne (by omega)]
  induction n generalizing i with
  | zero => omega
  | succ n ih =>
    rw [orderFrom_succ, orderFrom_succ]
    by_cases hij : i = j
    · subst hij
      refine ⟨[], _, rfl, ?_⟩
      rw [Function.update_self, hrest n (i + 1) (by omega)]
      rfl
    · obtain ⟨l₁, l₂, h1, h2⟩ := ih (i + 1) (by omega) (by omega)
      refine ⟨cs i ++ l₁, l₂, by rw [h1, List.append_assoc], ?_⟩
      rw [h2, Function.update_of_ne hij, List.append_assoc]

namespace Rep
variable {t : r_assoc δ} {cs : Nat → List Ptr}

/-- Inserting an absent key adds it, in front of its chain. -/
theorem insert_absent (h : Rep t cs) {key : Bytes} (hk : t.entry key = none) (d : δ) (copy destroy : Option FnPtr)
    (how : How) :
    ∃ t' cs', r_assoc_insert t key d copy destroy how = some (.ok, t', []) ∧ Rep t' cs' ∧
      t'.entry = Function.update t.entry key (some (d, copy, destroy)) ∧
      (order t' cs').length = (order t cs).length + 1 ∧
      t'.num_elements = t.num_elements + 1 ∧ SameHash t t' ∧ Keeps t cs t' cs' := by
  obtain ⟨t', hi, hr, ⟨e, he, hbe⟩, hb, hn, hbits, hhash, hbrk⟩ :=
    h.insert_new (h.entry_eq_none.1 hk) d copy destroy how
  have hsame : SameHash t t' := ⟨hbits, hhash⟩
  refine ⟨t', _, hi, hr, ?_, ?_, hn, hsame, hbrk ▸ Nat.le_succ _, fun p hp e' he' => ?_⟩
  · funext k
    by_cases hkk : k = key
    · subst hkk
      rw [Function.update_self]
      exact hr.entry_eq_some.2 ⟨_, e, he, hbe⟩
    · rw [Function.update_of_ne hkk]
      refine h.entry_of_bodies hr hb (fun e₁ he₁ => ?_) (fun e₁ he₁ => ?_) hkk
      · exact absurd (h.fresh _ e₁ he₁) (Nat.lt_irrefl _)
      · rw [he] at he₁
        cases he₁
        exact congrArg Prod.fst hbe
  · obtain ⟨l₁, l₂, h1, h2⟩ := orderFrom_insert cs (t.hash key) t.brk t.size 0 (by omega)
      (by have := h.hash_lt key; omega)
    rw [order, order, hsame.size, h1, h2]
    simp only [List.length_append, List.length_cons]
    omega
  · obtain ⟨e₁, he₁, hb₁⟩ := some_of_map_eq (hb p (Nat.ne_of_lt hp)).symm he'
    refine ⟨e₁, he₁, congrArg Prod.fst hb₁, fun i hpi => ?_⟩
    by_cases hik : i = t.hash key
    · subst hik
      simp [hpi]
    · rwa [Function.update_of_ne hik]

/-- `R_ASSOC_NEW` refuses a key that is present. -/
theorem insert_already (h : Rep t cs) {key : Bytes} {x : δ × Option FnPtr × Option FnPtr}
    (hk : t.entry key = some x) (d : δ) (copy destroy : Option FnPtr) :
    r_assoc_insert t key d copy destroy .R_ASSOC_NEW = some (.R_ALREADY, t, []) := by
  obtain ⟨a, e, he, hbe⟩ := h.entry_eq_some.1 hk
  have hb := h.fetch_bucket_some he
  rw [show e.key = key from congrArg Prod.fst hbe] at hb
  simp [r_assoc_insert, hb]

/-- Changing an element in place changes its key's entry only. -/
theorem modify_entry (h : Rep t cs) {a : Ptr} {e : r_assoc_el δ} (he : t.heap a = some e) (d : δ)
    (copy destroy : Option FnPtr) (n : UInt32) {key : Bytes} (hkey : e.key = key) :
    r_assoc.entry { t with
      heap := Function.update t.heap a (some { e with data := d, copy := copy, destroy := destroy })
      num_elements := n } = Function.update t.entry key (some (d, copy, destroy)) := by
  have hr := h.modify he d copy destroy n
  funext k
  by_cases hkk : k = key
  · subst hkk
    rw [Function.update_self]
    exact hr.entry_eq_some.2 ⟨a, _, Function.update_self .., by rw [← hkey]; rfl⟩
  · rw [Function.update_of_ne hkk]
    refine h.entry_of_bodies hr (a := a) (fun y hy => by simp [Function.update_of_ne hy]) (fun e₁ he₁ => ?_)
      (fun e₁ he₁ => ?_) hkk
    · rw [he] at he₁
      cases he₁
      exact hkey
    · simp only [Function.update_self, Option.some.injEq] at he₁
      rw [← he₁]
      exact hkey

/-- `R_ASSOC_REPLACE` on a key that is present overwrites it in place. -/
theorem insert_replace (h : Rep t cs) {key : Bytes} {x : δ × Option FnPtr × Option FnPtr}
    (hk : t.entry key = some x) (d : δ) (copy destroy : Option FnPtr) :
    ∃ t', r_assoc_insert t key d copy destroy .R_ASSOC_REPLACE = some (.ok, t', destroyOf x) ∧ Rep t' cs ∧
      t'.entry = Function.update t.entry key (some (d, copy, destroy)) ∧
      t'.num_elements = t.num_elements + 1 ∧ SameHash t t' ∧ Keeps t cs t' cs := by
  obtain ⟨a, e, he, hbe⟩ := h.entry_eq_some.1 hk
  have hkey : e.key = key := congrArg Prod.fst hbe
  have hb := h.fetch_bucket_some he
  rw [hkey] at hb
  refine ⟨_, ?_, h.modify he d copy destroy (t.num_elements + 1),
    h.modify_entry he d copy destroy (t.num_elements + 1) hkey, rfl, ⟨rfl, rfl⟩, Nat.le_refl _, fun p _ e' he' => ?_⟩
  · have hx : (e.data, e.copy, e.destroy) = x := congrArg Prod.snd hbe
    simp [r_assoc_insert, hb, he, r_assoc_el.destroyCall, destroyOf, ← hx]
  · by_cases hpa : p = a
    · subst hpa
      simp only [Function.update_self, Option.some.injEq] at he'
      exact ⟨e, he, by rw [← he'], fun _ hp => hp⟩
    · simp only [Function.update_of_ne hpa] at he'
      exact ⟨e', he', rfl, fun _ hp => hp⟩

theorem order_erase (h : Rep t cs) {t' : r_assoc δ} (hs : SameHash t t') (p : Ptr) :
    order t' (fun j => (cs j).erase p) = (order t cs).filter (· ≠ p) := by
  rw [order, order, hs.size, orderFrom_erase cs h.nodup]

/-- Erasing the element the iterator just passed leaves it where it is. -/
theorem erase_passed (h : Rep t cs) {t' : r_assoc δ} (hs : SameHash t t') {iter : r_assoc_iterator} {p : Ptr}
    {pre rest : List Ptr} (ho : order t cs = pre ++ p :: rest) (hat : At cs iter rest) :
    p ∉ rest ∧ order t' (fun j => (cs j).erase p) = pre ++ rest ∧ At (fun j => (cs j).erase p) iter rest := by
  have hnd := h.nodup_order
  rw [ho] at hnd
  have hpr : p ∉ rest := (List.nodup_cons.1 (List.nodup_append.1 hnd).2.1).1
  have hpp : p ∉ pre := fun hm => (List.nodup_append.1 hnd).2.2 p hm p (by simp) rfl
  have hfil : ∀ l : List Ptr, p ∉ l → l.filter (· ≠ p) = l := fun l hl =>
    List.filter_eq_self.2 fun q hq => by
      simp only [ne_eq, decide_not, Bool.not_eq_true', decide_eq_false_iff_not]
      rintro rfl
      exact hl hq
  refine ⟨hpr, ?_, ?_⟩
  · rw [h.order_erase hs, ho, List.filter_append, List.filter_cons_of_neg (by simp), hfil pre hpp, hfil rest hpr]
  · have hat' : At (fun j => (cs j).filter fun q => decide (q ≠ p)) iter (rest.filter fun q => decide (q ≠ p)) := by
      refine hat.filter fun q hq => ?_
      rw [hat.1] at hq
      simp only [ne_eq, decide_not, Bool.not_eq_true', decide_eq_false_iff_not]
      rintro rfl
      exact hpr (List.mem_of_head? hq)
    rw [hfil rest hpr] at hat'
    have hcs : (fun j => (cs j).filter fun q => decide (q ≠ p)) = fun j => (cs j).erase p := by
      funext j
      rw [(h.nodup j).erase_eq_filter]
      simp only [bne, beq_eq_decide, ne_eq, decide_not]
    rwa [hcs] at hat'

/-- The counter still counts after an element is released. -/
theorem count_erase (h : Rep t cs) {t' : r_assoc δ} (hs : SameHash t t') {p : Ptr} {e : r_assoc_el δ}
    (he : t.heap p = some e) (hn : t'.num_elements = t.num_elements - 1)
    (hc : t.num_elements = UInt32.ofNat (order t cs).length) :
    t'.num_elements = UInt32.ofNat (order t' fun j => (cs j).erase p).length := by
  have hmem : p ∈ order t cs := h.mem_order.2 ⟨e, he⟩
  have hlen : ((order t cs).filter fun q => decide (q ≠ p)).length = (order t cs).length - 1 := by
    rw [← List.length_erase_of_mem hmem, h.nodup_order.erase_eq_filter]
    simp only [ne_eq, bne, beq_eq_decide, decide_not]
  rw [hn, hc, h.order_erase hs, hlen, UInt32.ofNat_sub (List.length_pos_of_mem hmem)]
  rfl

/-- Releasing an element removes its key and nothing else. -/
theorem release_entry (h : Rep t cs) {i : Nat} {p : Ptr} (hp : p ∈ cs i) :
    ∃ t' e, t.heap p = some e ∧ t.release i p = some (t', e.destroyCall) ∧ Rep t' (fun j => (cs j).erase p) ∧
      t'.entry = Function.update t.entry e.key none ∧ (∀ x, x ≠ p → (t'.heap x).map body = (t.heap x).map body) ∧
      t'.heap p = none ∧ t'.num_elements = t.num_elements - 1 ∧ SameHash t t' ∧
      Keeps t cs t' (fun j => (cs j).erase p) := by
  obtain ⟨t', e, he, hrel, hr, hnone, hb, hn, hbits, hhash, hbrk⟩ := h.release hp
  refine ⟨t', e, he, hrel, hr, ?_, hb, hnone, hn, ⟨hbits, hhash⟩, Nat.le_of_eq hbrk.symm, fun x _ e' he' => ?_⟩
  rotate_left
  · have hxp : x ≠ p := by
      rintro rfl
      rw [hnone] at he'
      cases he'
    obtain ⟨e₁, he₁, hb₁⟩ := some_of_map_eq (hb x hxp).symm he'
    exact ⟨e₁, he₁, congrArg Prod.fst hb₁, fun i hx => (List.mem_erase_of_ne hxp).2 hx⟩
  funext k
  by_cases hkk : k = e.key
  · subst hkk
    rw [Function.update_self, hr.entry_eq_none]
    intro b e' he' hk
    have hbp : b ≠ p := by
      rintro rfl
      rw [hnone] at he'
      cases he'
    obtain ⟨e₁, he₁, hb₁⟩ := some_of_map_eq (hb b hbp).symm he'
    exact hbp (h.keys b p e₁ e he₁ he ((congrArg Prod.fst hb₁).trans hk))
  · rw [Function.update_of_ne hkk]
    refine h.entry_of_bodies hr hb (fun e₁ he₁ => ?_) (fun e₁ he₁ => ?_) hkk
    · rw [he] at he₁
      cases he₁
      rfl
    · rw [hnone] at he₁
      cases he₁

/-- Deleting a key that is present removes that key only. -/
theorem delete_present (h : Rep t cs) {key : Bytes} {x : δ × Option FnPtr × Option FnPtr}
    (hk : t.entry key = some x) :
    ∃ t' a e, t.heap a = some e ∧ e.key = key ∧ r_assoc_delete t key = some (.ok, t', destroyOf x) ∧
      Rep t' (fun j => (cs j).erase a) ∧ t'.entry = Function.update t.entry key none ∧
      (∀ y, y ≠ a → (t'.heap y).map body = (t.heap y).map body) ∧ t'.heap a = none ∧
      t'.num_elements = t.num_elements - 1 ∧ SameHash t t' ∧ Keeps t cs t' (fun j => (cs j).erase a) := by
  obtain ⟨a, e, he, hbe⟩ := h.entry_eq_some.1 hk
  have hkey : e.key = key := congrArg Prod.fst hbe
  have hb := h.fetch_bucket_some he
  obtain ⟨t', e', he', hrel, hr, hent, hbod, hnone, hn, hsame⟩ := h.release_entry (h.mem_hash he)
  rw [he] at he'
  cases he'
  rw [hkey] at hb hrel hent
  refine ⟨t', a, e, he, hkey, ?_, hr, hent, hbod, hnone, hn, hsame⟩
  have hx : (e.data, e.copy, e.destroy) = x := congrArg Prod.snd hbe
  simp [r_assoc_delete, hb, hrel, r_assoc_el.destroyCall, destroyOf, ← hx]

/-- The allocated elements, in whatever order, are as many as the order has. -/
theorem entries_eq (h : Rep t cs) : t.entries = (order t cs).length := by
  refine List.Perm.length_eq ((List.perm_ext_iff_of_nodup (List.nodup_range.filter _) h.nodup_order).2 fun a => ?_)
  rw [List.mem_filter, List.mem_range, h.mem_order, Option.isSome_iff_exists]
  constructor
  · rintro ⟨-, he⟩
    exact he
  · rintro ⟨e, he⟩
    exact ⟨h.fresh a e he, e, he⟩

theorem order_length_le (h : Rep t cs) : (order t cs).length ≤ t.brk := by
  rw [← h.entries_eq, r_assoc.entries]
  simpa using List.length_filter_le (fun a => (t.heap a).isSome) (List.range t.brk)

theorem destroy_chain_seg {heap : Heap (r_assoc_el δ)} {p hd : Option Ptr} {l : List Ptr}
    (hs : Seg heap p hd l none) {n : Nat} (hn : l.length ≤ n) :
    destroy_assoc_chain heap n hd = some (l.flatMap fun a => ((heap a).map r_assoc_el.destroyCall).getD []) := by
  induction l generalizing p hd n with
  | nil =>
    have : hd = none := hs
    subst this
    simp [destroy_assoc_chain]
  | cons a l ih =>
    obtain ⟨rfl, e, he, -, hs⟩ := hs
    obtain ⟨n, rfl, hle⟩ := fuel_cons hn
    have hc : destroy_assoc_chain heap n e.next = _ := ih hs hle
    simp [destroy_assoc_chain, he, hc]

/-- Destroying a table destroys each datum once, in iteration order. -/
theorem destroy_eq (h : Rep t cs) :
    r_assoc_destroy t = some ((order t cs).flatMap fun a => ((t.heap a).map r_assoc_el.destroyCall).getD []) := by
  have hall : ∀ l : List Nat, (∀ i ∈ l, i < t.size) →
      l.mapM (fun i => destroy_assoc_chain t.heap t.brk (t.chains i)) =
        some (l.map fun i => (cs i).flatMap fun a => ((t.heap a).map r_assoc_el.destroyCall).getD []) := by
    intro l hl
    induction l with
    | nil => rfl
    | cons i l ih =>
      rw [List.mapM_cons, destroy_chain_seg (h.seg i (hl i (by simp))) (h.length_le i),
        ih fun j hj => hl j (by simp [hj])]
      rfl
  rw [r_assoc_destroy, hall _ fun i hi => List.mem_range.1 hi, order, orderFrom, List.flatMap_assoc,
    ← List.range_eq_range', Option.map_some, List.flatMap_def]

theorem chain_data_seg {heap : Heap (r_assoc_el δ)} {p hd : Option Ptr} {l : List Ptr}
    (hs : Seg heap p hd l none) {n : Nat} (hn : l.length ≤ n) :
    chain_data heap n hd = l.filterMap fun a => (heap a).map (·.data) := by
  induction l generalizing p hd n with
  | nil =>
    have : hd = none := hs
    subst this
    simp [chain_data]
  | cons a l ih =>
    obtain ⟨rfl, e, he, -, hs⟩ := hs
    obtain ⟨n, rfl, hle⟩ := fuel_cons hn
    have hc : chain_data heap n e.next = _ := ih hs hle
    simp [chain_data, he, hc]

theorem elements_eq (h : Rep t cs) : t.elements = (order t cs).filterMap fun a => (t.heap a).map (·.data) := by
  have hall : ∀ l : List Nat, (∀ i ∈ l, i < t.size) →
      (l.flatMap fun i => chain_data t.heap t.brk (t.chains i)) =
        (l.flatMap cs).filterMap fun a => (t.heap a).map (·.data) := by
    intro l hl
    induction l with
    | nil => rfl
    | cons i l ih =>
      rw [List.flatMap_cons, List.flatMap_cons, List.filterMap_append, ih fun j hj => hl j (by simp [hj]),
        chain_data_seg (h.seg i (hl i (by simp))) (h.length_le i)]
  rw [r_assoc.elements, hall _ fun i hi => List.mem_range.1 hi, order, orderFrom, List.range_eq_range']

theorem delete_absent (h : Rep t cs) {key : Bytes} (hk : t.entry key = none) :
    r_assoc_delete t key = some (.R_NOT_FOUND, t, []) := by
  simp [r_assoc_delete, h.fetch_bucket_none (h.entry_eq_none.1 hk)]

end Rep

end Nrappkit.Assoc
