import Nrappkit.Assoc.Copy
/-!
# What `r_assoc_copy` leaves in memory

The new elements lie one after the other from the old `brk` on, and nothing
below it changes. `Copying` is the state of `copy_assoc_chain` in its loop,
`Built` what `r_assoc_copy` has built of the new table. After a failed copy the
chain and then the table are destroyed, and the memory is the old one again.
-/
open Lib DLink

namespace Nrappkit.Assoc

variable {δ : Type}

/-- The destructor call for the element at an address. -/
def destroyAt (heap : Heap (r_assoc_el δ)) (a : Ptr) : List (FnPtr × δ) := ((heap a).map r_assoc_el.destroyCall).getD []

/-! ## Destroying -/

theorem Mem.destroy_chain_seg {heap : Heap (r_assoc_el δ)} {p hd : Option Ptr} {l : List Ptr} (hs : Seg heap p hd l none)
    (hn : l.Nodup) {n : Nat} (hl : l.length ≤ n) :
    Mem.destroy_assoc_chain n heap hd = some (without heap l, l.flatMap (destroyAt heap)) := by
  induction l generalizing heap p hd n with
  | nil =>
    have hnull : hd = none := hs
    subst hnull
    simp [Mem.destroy_assoc_chain]
  | cons a l ih =>
    obtain ⟨rfl, e, he, -, hs⟩ := hs
    obtain ⟨hal, hn⟩ := List.nodup_cons.1 hn
    obtain ⟨n, rfl, hle⟩ := fuel_cons hl
    have hne : ∀ x ∈ l, x ≠ a := by
      rintro x hx rfl
      exact hal hx
    have hs' : Seg (Function.update heap a none) (some a) e.next l none :=
      hs.frame fun x hx => Function.update_of_ne (hne x hx) _ _
    have hcalls : l.flatMap (destroyAt (Function.update heap a none)) = l.flatMap (destroyAt heap) :=
      List.flatMap_congr fun x hx => by rw [destroyAt, Function.update_of_ne (hne x hx), destroyAt]
    have hrest := ih hs' hn hle
    simp [Mem.destroy_assoc_chain, he, hrest, hcalls, without_cons, destroyAt]

theorem orderFrom_congr {cs cs' : Nat → List Ptr} {n i : Nat} (h : ∀ j, i ≤ j → j < i + n → cs' j = cs j) :
    orderFrom cs' n i = orderFrom cs n i :=
  List.flatMap_congr fun j hj => by
    obtain ⟨h1, h2⟩ := List.mem_range'_1.1 hj
    exact h j h1 h2

theorem Mem.destroy_chains_seg {fuel : Nat} {chains : Nat → Option Ptr} {cs : Nat → List Ptr} {n i : Nat}
    {heap : Heap (r_assoc_el δ)} (hs : ∀ j, i ≤ j → j < i + n → Seg heap none (chains j) (cs j) none)
    (hn : (orderFrom cs n i).Nodup) (hlt : ∀ a ∈ orderFrom cs n i, a < fuel) :
    Mem.destroy_chains fuel chains n i heap =
      some (without heap (orderFrom cs n i), (orderFrom cs n i).flatMap (destroyAt heap)) := by
  induction n generalizing i heap with
  | zero => simp [Mem.destroy_chains, orderFrom]
  | succ n ih =>
    rw [orderFrom_succ] at hn hlt ⊢
    obtain ⟨hn1, hn2, hdisj⟩ := List.nodup_append.1 hn
    have hlen := length_le_of_lt hn1 fun a ha => hlt a (List.mem_append_left _ ha)
    have hout : ∀ a ∈ orderFrom cs n (i + 1), a ∉ cs i := fun a ha ha' => hdisj a ha' a ha rfl
    have hs' : ∀ j, i + 1 ≤ j → j < i + 1 + n → Seg (without heap (cs i)) none (chains j) (cs j) none := by
      intro j h1 h2
      refine (hs j (by omega) (by omega)).frame fun a ha => if_neg (hout a ?_)
      exact mem_orderFrom.2 ⟨j, h1, h2, ha⟩
    have hrest := ih hs' hn2 fun a ha => hlt a (List.mem_append_right _ ha)
    have hcalls : (orderFrom cs n (i + 1)).flatMap (destroyAt (without heap (cs i))) =
        (orderFrom cs n (i + 1)).flatMap (destroyAt heap) :=
      List.flatMap_congr fun a ha => by rw [destroyAt, without, if_neg (hout a ha), destroyAt]
    simp [Mem.destroy_chains, Mem.destroy_chain_seg (hs i (by omega) (by omega)) hn1 hlen, hrest, hcalls, without_append]

/-! ## One chain -/

/-- From `m₀` on the elements `new` were hooked into the chain `knew`. -/
structure Copying (m₀ m : Mem δ) (knew : Option Ptr) (new : List (r_assoc_el δ)) : Prop where
  brk : m.brk = m₀.brk + new.length
  seg : Seg m.heap none knew (List.range' m₀.brk new.length) none
  body : (List.range' m₀.brk new.length).map (fun a => (m.heap a).map body) = new.map fun e => some (body e)
  old : ∀ a < m₀.brk, m.heap a = m₀.heap a
  fresh : ∀ a, m.brk ≤ a → m.heap a = none

/-- The addresses from `brk` on are free. -/
def Mem.Fresh (m : Mem δ) : Prop := ∀ a, m.brk ≤ a → m.heap a = none

theorem Copying.start {m : Mem δ} (hf : m.Fresh) : Copying m m none [] where
  brk := rfl
  seg := rfl
  body := rfl
  old _ _ := rfl
  fresh := hf

theorem Copying.add {m₀ m : Mem δ} {knew : Option Ptr} {new : List (r_assoc_el δ)} (h : Copying m₀ m knew new)
    (e : r_assoc_el δ) (copies : List (CopyCall δ)) :
    ∃ heap knew', hookBack m.heap knew (List.range' m₀.brk new.length).getLast? m.brk e = some (heap, knew') ∧
      Copying m₀ ⟨heap, m.brk + 1, copies⟩ knew' (new ++ [e]) := by
  have hbrk := h.brk
  have hin : ∀ {a}, a ∈ List.range' m₀.brk new.length → m₀.brk ≤ a ∧ a < m.brk := fun hm => hbrk ▸ List.mem_range'_1.1 hm
  have hout : m.brk ∉ List.range' m₀.brk new.length := fun hm => Nat.lt_irrefl _ (hin hm).2
  have hle : m₀.brk ≤ m.brk := hbrk ▸ Nat.le_add_right ..
  obtain ⟨heap, knew', hw, hs, ⟨e', he', hb'⟩, hb, hf⟩ := h.seg.hookBack e List.nodup_range' hout
  have hcells : List.range' m₀.brk (new ++ [e]).length = List.range' m₀.brk new.length ++ [m.brk] := by
    rw [List.length_append, List.length_singleton, List.range'_1_concat, hbrk]
  refine ⟨heap, knew', hw, ?_, ?_, ?_, fun a ha => ?_, fun a ha => ?_⟩
  · simp [hbrk, Nat.add_assoc]
  · rw [hcells]
    exact hs
  · rw [hcells, List.map_append, List.map_append, ← h.body]
    congr 1
    · refine List.map_congr_left fun a ha => hb a ?_
      rintro rfl
      exact hout ha
    · simp [he', hb']
  · exact (hf a (Nat.ne_of_lt (Nat.lt_of_lt_of_le ha hle)) fun hm => Nat.not_lt.2 (hin hm).1 ha).trans (h.old a ha)
  · have hlt : m.brk < a := ha
    exact (hf a (Nat.ne_of_gt hlt) fun hm => Nat.lt_asymm (hin hm).2 hlt).trans (h.fresh a (Nat.le_of_lt hlt))

/-- The loop hooks in what `copyEls` computes. The induction is on what is left
of the old chain. -/
theorem copy_loop_spec (fns : CopyFns δ) {m₀ m : Mem δ} {knew : Option Ptr} {new : List (r_assoc_el δ)} (h : Copying m₀ m knew new)
    {p hd : Option Ptr} {src : List Ptr} (hs : Seg m₀.heap p hd src none) (hlt : ∀ a ∈ src, a < m₀.brk) {n : Nat}
    (hn : src.length ≤ n) :
    ∃ m' knew', copy_loop fns n m knew (List.range' m₀.brk new.length).getLast? hd =
        some ((copyEls fns m.copies.length (src.filterMap m₀.heap)).1, m', knew') ∧
      Copying m₀ m' knew' (new ++ (copyEls fns m.copies.length (src.filterMap m₀.heap)).2.1) ∧
      m'.copies = m.copies ++ (copyEls fns m.copies.length (src.filterMap m₀.heap)).2.2 := by
  induction src generalizing m knew new p hd n with
  | nil =>
    have hnull : hd = none := hs
    subst hnull
    refine ⟨m, knew, by simp [copy_loop, copyEls], ?_, by simp [copyEls]⟩
    simpa [copyEls] using h
  | cons a src ih =>
    obtain ⟨rfl, e, he, -, hs⟩ := hs
    obtain ⟨n, rfl, hle⟩ := fuel_cons hn
    have hs : Seg m₀.heap (some a) e.next src none := hs
    have ha := hlt a (by simp)
    have hel : m.heap a = some e := by rw [h.old a ha, he]
    obtain ⟨heap, knew', hw, h'⟩ := h.add (e.copied fns m.copies.length).2.1 (m.copies ++ (e.copied fns m.copies.length).2.2)
    have hel' : heap a = some e := by rw [show heap a = m₀.heap a from h'.old a ha, he]
    rw [List.filterMap_cons_some he]
    by_cases hc : (e.copied fns m.copies.length).1 = 0
    · have hlast : (List.range' m₀.brk (new ++ [(e.copied fns m.copies.length).2.1]).length).getLast? = some m.brk := by
        rw [List.length_append, List.length_singleton, List.range'_1_concat, ← h.brk, List.getLast?_concat]
      obtain ⟨m', knew'', hrun, hcop, hcalls⟩ :=
        ih h' hs (fun x hx => hlt x (by simp [hx])) hle
      rw [hlast] at hrun
      simp only [List.length_append] at hrun hcop hcalls
      refine ⟨m', knew'', ?_, ?_, ?_⟩
      · simpa [copy_loop, hel, hw, hc, hel', copyEls] using hrun
      · simpa [copyEls, hc] using hcop
      · simpa [copyEls, hc] using hcalls
    · refine ⟨_, knew', by simp [copy_loop, hel, hw, hc, copyEls]; rfl, ?_, ?_⟩
      · simpa [copyEls, hc] using h'
      · simp [copyEls, hc]

/-- Elements with these bodies get these destructor calls. -/
theorem flatMap_destroyAt {heap : Heap (r_assoc_el δ)} {l : List Ptr} {els : List (r_assoc_el δ)}
    (h : l.map (fun a => (heap a).map body) = els.map fun e => some (body e)) :
    l.flatMap (destroyAt heap) = els.flatMap r_assoc_el.destroyCall := by
  have hat : ∀ a, destroyAt heap a = (((heap a).map body).map fun x => destroyOf x.2).getD [] := by
    intro a
    rw [destroyAt, Option.map_map]
    rfl
  have hmap := congrArg (List.flatMap fun x : Option (Bytes × δ × Option FnPtr × Option FnPtr) =>
    (x.map fun x => destroyOf x.2).getD []) h
  rw [List.flatMap_map, List.flatMap_map] at hmap
  rw [List.flatMap_congr fun a _ => hat a, hmap]
  rfl

/-- A chain is copied whole, or it is destroyed again and the memory is as it
was. -/
theorem copy_assoc_chain_spec (fns : CopyFns δ) {m : Mem δ} (hf : m.Fresh) {hd : Option Ptr} {src : List Ptr} (hs : Seg m.heap none hd src none)
    (hn : src.Nodup) (hlt : ∀ a ∈ src, a < m.brk) {c : Int × List (r_assoc_el δ) × List (CopyCall δ)}
    (hc : copyEls fns m.copies.length (src.filterMap m.heap) = c) :
    (c.1 = 0 → ∃ m' knew, copy_assoc_chain fns m hd = some (0, m', knew, []) ∧ Copying m m' knew c.2.1 ∧
      m'.copies = m.copies ++ c.2.2) ∧
    (c.1 ≠ 0 → copy_assoc_chain fns m hd =
      some (c.1, ⟨m.heap, m.brk + c.2.1.length, m.copies ++ c.2.2⟩, none, c.2.1.flatMap r_assoc_el.destroyCall)) := by
  obtain ⟨m', knew, hrun, hcop, hcalls⟩ := copy_loop_spec fns (Copying.start hf) hs hlt (length_le_of_lt hn hlt)
  rw [hc] at hrun hcop hcalls
  rw [List.nil_append] at hcop
  rw [show (List.range' m.brk ([] : List (r_assoc_el δ)).length).getLast? = none from rfl] at hrun
  refine ⟨fun h0 => ⟨m', knew, by simp [copy_assoc_chain, hrun, h0], hcop, hcalls⟩, fun h0 => ?_⟩
  have hbrk := hcop.brk
  have hdes := Mem.destroy_chain_seg hcop.seg List.nodup_range' (n := m'.brk)
    (by rw [List.length_range', hbrk]; exact Nat.le_add_left ..)
  rw [without_new hf hcop.old (hbrk ▸ hcop.fresh), flatMap_destroyAt hcop.body] at hdes
  simp [copy_assoc_chain, hrun, h0, hdes, ← hcalls, ← hbrk]

/-! ## All chains -/

/-- The element at `b` is the copy of the element at `a`. -/
def Twin (calls : List (CopyCall δ)) (heap heap' : Heap (r_assoc_el δ)) (a b : Ptr) : Prop :=
  ∃ e e', heap a = some e ∧ heap' b = some e' ∧ CopyOf calls e e'

theorem CopyOf.body {calls : List (CopyCall δ)} {old new new' : r_assoc_el δ} (h : CopyOf calls old new)
    (hb : DLink.body new' = DLink.body new) : CopyOf calls old new' := by
  obtain ⟨hkey, hdata, hcopy, hdestroy⟩ := Rep.body_eq hb
  rwa [CopyOf, hkey, hdata, hcopy, hdestroy]

theorem twins {calls : List (CopyCall δ)} {heap heap' : Heap (r_assoc_el δ)} {src l : List Ptr} {new : List (r_assoc_el δ)}
    (hlive : ∀ a ∈ src, ∃ e, heap a = some e) (hall : List.Forall₂ (CopyOf calls) (src.filterMap heap) new)
    (hb : l.map (fun a => (heap' a).map body) = new.map fun e => some (body e)) :
    List.Forall₂ (Twin calls heap heap') src l := by
  induction src generalizing l new with
  | nil =>
    cases hall
    rw [List.map_nil, List.map_eq_nil_iff] at hb
    subst hb
    exact .nil
  | cons a src ih =>
    obtain ⟨e, he⟩ := hlive a (by simp)
    rw [List.filterMap_cons_some he] at hall
    cases hall with
    | cons hco hall =>
      cases l with
      | nil => cases hb
      | cons b l =>
        simp only [List.map_cons, List.cons.injEq] at hb
        obtain ⟨e', he', hbe⟩ := Option.map_eq_some_iff.1 hb.1
        exact .cons ⟨e, e', he, he', hco.body hbe⟩ (ih (fun x hx => hlive x (by simp [hx])) hall hb.2)

theorem forall₂_of_mem {α β : Type} {R S : α → β → Prop} {l : List α} {l' : List β} (h : List.Forall₂ R l l')
    (hRS : ∀ a ∈ l, ∀ b ∈ l', R a b → S a b) : List.Forall₂ S l l' := by
  induction h with
  | nil => exact .nil
  | cons hab _ ih =>
    exact .cons (hRS _ (by simp) _ (by simp) hab) (ih fun a ha b hb => hRS a (by simp [ha]) b (by simp [hb]))

theorem Twin.mono {calls calls' : List (CopyCall δ)} {heap₁ heap₁' heap₂ heap₂' : Heap (r_assoc_el δ)} {a b : Ptr}
    (h : Twin calls heap₁ heap₁' a b) (hsub : calls ⊆ calls') (ha : heap₂ a = heap₁ a) (hb : heap₂' b = heap₁' b) :
    Twin calls' heap₂ heap₂' a b := by
  obtain ⟨e, e', he, he', hco⟩ := h
  exact ⟨e, e', by rw [ha, he], by rw [hb, he'], hco.mono hsub⟩

/-- What the `n` chains from `i` on have become: `cs` are the old chains, `ns` the
new ones, which take the `k` addresses from the old `brk` on. `calls` are the
destructor calls already made. -/
structure Built (m m' : Mem δ) (cs ns : Nat → List Ptr) (chains : Nat → Option Ptr) (n i k : Nat)
    (c : Int × List (r_assoc_el δ) × List (CopyCall δ)) (calls : List (FnPtr × δ)) : Prop where
  copies : m'.copies = m.copies ++ c.2.2
  seg : ∀ j, i ≤ j → j < i + n → Seg m'.heap none (chains j) (ns j) none
  cells : orderFrom ns n i = List.range' m.brk k
  outside : ∀ j, i + n ≤ j → ns j = []
  brk : m.brk + k ≤ m'.brk
  old : ∀ a < m.brk, m'.heap a = m.heap a
  fresh : ∀ a, m.brk + k ≤ a → m'.heap a = none
  destroyed : (orderFrom ns n i).flatMap (destroyAt m'.heap) ++ calls = c.2.1.flatMap r_assoc_el.destroyCall
  done : c.1 = 0 → calls = [] ∧ m'.brk = m.brk + k ∧
    ∀ j, i ≤ j → j < i + n → List.Forall₂ (Twin c.2.2 m.heap m'.heap) (cs j) (ns j)

/-- The chains `cs` are laid out below `brk`. -/
def Laid (m : Mem δ) (chains : Nat → Option Ptr) (cs : Nat → List Ptr) (n i : Nat) : Prop :=
  ∀ j, i ≤ j → j < i + n → Seg m.heap none (chains j) (cs j) none ∧ (cs j).Nodup ∧ ∀ a ∈ cs j, a < m.brk

theorem Laid.tail {m m' : Mem δ} {chains : Nat → Option Ptr} {cs : Nat → List Ptr} {n i : Nat}
    (h : Laid m chains cs (n + 1) i) (hold : ∀ a < m.brk, m'.heap a = m.heap a) (hbrk : m.brk ≤ m'.brk) :
    Laid m' chains cs n (i + 1) ∧ (orderFrom cs n (i + 1)).filterMap m'.heap = (orderFrom cs n (i + 1)).filterMap m.heap := by
  refine ⟨fun j h1 h2 => ?_, List.filterMap_congr fun a ha => ?_⟩
  · obtain ⟨hs, hn, hlt⟩ := h j (by omega) (by omega)
    exact ⟨hs.frame fun a ha => hold a (hlt a ha), hn, fun a ha => Nat.lt_of_lt_of_le (hlt a ha) hbrk⟩
  · obtain ⟨j, h1, h2, haj⟩ := mem_orderFrom.1 ha
    exact hold a ((h j (by omega) (by omega)).2.2 a haj)

/-- The chains are copied one after the other. The induction is on the number of
chains left. -/
theorem copy_chains_spec (fns : CopyFns δ) {old : Nat → Option Ptr} {cs : Nat → List Ptr} {n i : Nat} {m : Mem δ} (hf : m.Fresh)
    (hs : Laid m old cs n i) {chains : Nat → Option Ptr} (hnull : ∀ j, i ≤ j → chains j = none) :
    ∃ m' chains' calls ns k, copy_chains fns old n i m chains =
        some ((copyEls fns m.copies.length ((orderFrom cs n i).filterMap m.heap)).1, m', chains', calls) ∧
      (∀ j < i, chains' j = chains j) ∧
      Built m m' cs ns chains' n i k (copyEls fns m.copies.length ((orderFrom cs n i).filterMap m.heap)) calls := by
  induction n generalizing i m chains with
  | zero =>
    refine ⟨m, chains, [], fun _ => [], 0, rfl, fun _ _ => rfl, ?_⟩
    have hno : ∀ j, i ≤ j → ¬j < i + 0 := fun j h1 h2 => by omega
    exact ⟨by simp [orderFrom, copyEls], fun j h1 h2 => absurd h2 (hno j h1), rfl, fun _ _ => rfl, Nat.le_refl _,
      fun _ _ => rfl, hf, rfl, fun _ => ⟨rfl, rfl, fun j h1 h2 => absurd h2 (hno j h1)⟩⟩
  | succ n ih =>
    obtain ⟨hseg, hnd, hlt⟩ := hs i (Nat.le_refl _) (by omega)
    obtain ⟨hok, hfail⟩ := copy_assoc_chain_spec fns hf hseg hnd hlt rfl
    rw [orderFrom_succ, List.filterMap_append, copyEls_append]
    generalize hc : copyEls fns m.copies.length ((cs i).filterMap m.heap) = c at hok hfail ⊢
    by_cases h0 : c.1 = 0
    · obtain ⟨m₁, knew, hrun, hcop, hcalls⟩ := hok h0
      have hbrk₁ : m.brk + c.2.1.length = m₁.brk := hcop.brk.symm
      have hle : m.brk ≤ m₁.brk := hbrk₁ ▸ Nat.le_add_right ..
      obtain ⟨hs₁, hels⟩ := hs.tail hcop.old hle
      have hnull₁ : ∀ j, i + 1 ≤ j → Function.update chains i knew j = none := fun j hj => by
        rw [Function.update_of_ne (by omega)]
        exact hnull j (by omega)
      obtain ⟨m', chains', calls, ns, k, hrest, hbefore, hbuilt⟩ := ih hcop.fresh hs₁ hnull₁
      rw [hels, hcalls, List.length_append] at hrest hbuilt
      have hold : ∀ a < m₁.brk, m'.heap a = m₁.heap a := hbuilt.old
      have hord : orderFrom (Function.update ns i (List.range' m.brk c.2.1.length)) n (i + 1) = orderFrom ns n (i + 1) :=
        orderFrom_congr fun j h1 h2 => Function.update_of_ne (by omega) _ _
      have hlow : ∀ a ∈ List.range' m.brk c.2.1.length, m'.heap a = m₁.heap a := fun a ha =>
        hold a (hbrk₁ ▸ (List.mem_range'_1.1 ha).2)
      refine ⟨m', chains', calls, Function.update ns i (List.range' m.brk c.2.1.length), c.2.1.length + k, ?_, ?_, ?_⟩
      · simp [copy_chains, hrun, hrest, h0]
      · intro j hj
        rw [hbefore j (by omega), Function.update_of_ne (by omega)]
      · simp only [h0, ne_eq, not_true_eq_false, if_false]
        constructor
        · rw [hbuilt.copies, hcalls, List.append_assoc]
        · intro j h1 h2
          by_cases hj : j = i
          · subst hj
            rw [Function.update_self, hbefore j (by omega), Function.update_self]
            exact hcop.seg.frame hlow
          · rw [Function.update_of_ne hj]
            exact hbuilt.seg j (by omega) (by omega)
        · rw [orderFrom_succ, Function.update_self, hord, hbuilt.cells, ← hbrk₁, List.range'_append_1]
        · intro j hj
          rw [Function.update_of_ne (by omega)]
          exact hbuilt.outside j (by omega)
        · rw [← Nat.add_assoc, hbrk₁]
          exact hbuilt.brk
        · intro a ha
          rw [hold a (Nat.lt_of_lt_of_le ha hle), hcop.old a ha]
        · intro a ha
          rw [← Nat.add_assoc, hbrk₁] at ha
          exact hbuilt.fresh a ha
        · rw [orderFrom_succ, Function.update_self, hord, List.flatMap_append, List.append_assoc, hbuilt.destroyed,
            List.flatMap_append, ← flatMap_destroyAt hcop.body]
          congr 1
          exact List.flatMap_congr fun a ha => by rw [destroyAt, hlow a ha, destroyAt]
        · intro hr
          obtain ⟨hnil, hbrk, htwins⟩ := hbuilt.done hr
          refine ⟨hnil, by rw [hbrk, ← hbrk₁, Nat.add_assoc], fun j h1 h2 => ?_⟩
          by_cases hj : j = i
          · subst hj
            rw [Function.update_self]
            have hco : List.Forall₂ (CopyOf c.2.2) ((cs j).filterMap m.heap) c.2.1 := by
              rw [← hc] at h0 ⊢
              exact (copyEls_ok h0).1
            refine forall₂_of_mem (twins (fun a ha => hseg.live ha) hco hcop.body) fun a _ b hb htwin => ?_
            exact htwin.mono (List.subset_append_left ..) rfl (hlow b hb)
          · rw [Function.update_of_ne hj]
            refine forall₂_of_mem (htwins j (by omega) (by omega)) fun a ha b _ htwin => ?_
            refine htwin.mono (List.subset_append_right ..) ?_ rfl
            exact (hcop.old a ((hs j h1 (by omega)).2.2 a ha)).symm
    · have hrun := hfail h0
      have hnone : orderFrom (fun _ => ([] : List Ptr)) (n + 1) i = [] := by simp [orderFrom]
      refine ⟨_, chains, _, fun _ => [], 0, by simp [copy_chains, hrun, h0]; exact ⟨rfl, rfl⟩, fun _ _ => rfl, ?_⟩
      simp only [h0, ne_eq, not_false_eq_true, if_true]
      exact ⟨rfl, fun j h1 _ => hnull j h1, hnone, fun _ _ => rfl, Nat.le_add_right .., fun _ _ => rfl, hf,
        by rw [hnone]; rfl, fun h => absurd h h0⟩

/-- The whole table is copied, or nothing of the copy is left. -/
theorem r_assoc_copy_spec (fns : CopyFns δ) {m : Mem δ} (hf : m.Fresh) {h : Handle} {cs : Nat → List Ptr}
    (hs : Laid m h.chains cs (2 ^ h.bits) 0) {c : Int × List (r_assoc_el δ) × List (CopyCall δ)}
    (hc : copyEls fns m.copies.length ((orderFrom cs (2 ^ h.bits) 0).filterMap m.heap) = c) :
    (c.1 = 0 → ∃ m' chains ns k, r_assoc_copy fns m h = some (0, m', some chains, []) ∧
      Built m m' cs ns chains (2 ^ h.bits) 0 k c []) ∧
    (c.1 ≠ 0 → ∃ m' calls, r_assoc_copy fns m h = some (c.1, m', none, calls) ∧ m'.heap = m.heap ∧ m.brk ≤ m'.brk ∧
      m'.copies = m.copies ++ c.2.2 ∧ calls.Perm (c.2.1.flatMap r_assoc_el.destroyCall)) := by
  have hnull : ∀ j, 0 ≤ j → (fun _ => none : Nat → Option Ptr) j = none := fun _ _ => rfl
  obtain ⟨m', chains, calls, ns, k, hrun, -, hbuilt⟩ := copy_chains_spec fns hf hs hnull
  rw [hc] at hrun hbuilt
  refine ⟨fun h0 => ?_, fun h0 => ?_⟩
  · obtain ⟨rfl, -, -⟩ := hbuilt.done h0
    exact ⟨m', chains, ns, k, by simp [r_assoc_copy, hrun, h0], hbuilt⟩
  · have hnd : (orderFrom ns (2 ^ h.bits) 0).Nodup := hbuilt.cells ▸ List.nodup_range'
    have hlt : ∀ a ∈ orderFrom ns (2 ^ h.bits) 0, a < m'.brk := fun a ha => by
      rw [hbuilt.cells] at ha
      exact Nat.lt_of_lt_of_le (List.mem_range'_1.1 ha).2 hbuilt.brk
    have hdes := Mem.destroy_chains_seg hbuilt.seg hnd hlt
    have hheap : without m'.heap (orderFrom ns (2 ^ h.bits) 0) = m.heap := by
      rw [hbuilt.cells]
      exact without_new hf hbuilt.old hbuilt.fresh
    rw [hheap] at hdes
    refine ⟨⟨m.heap, m'.brk, m'.copies⟩, calls ++ (orderFrom ns (2 ^ h.bits) 0).flatMap (destroyAt m'.heap), ?_, rfl,
      Nat.le_trans (Nat.le_add_right ..) hbuilt.brk, hbuilt.copies, ?_⟩
    · simp [r_assoc_copy, hrun, h0, Mem.r_assoc_destroy, hdes]
    · rw [← hbuilt.destroyed]
      exact List.perm_append_comm

/-! ## The new table -/

section
variable {t : r_assoc δ} {cs ns : Nat → List Ptr} {m m' : Mem δ} {chains : Nat → Option Ptr} {k : Nat}
  {c : Int × List (r_assoc_el δ) × List (CopyCall δ)} {calls : List (FnPtr × δ)}

/-- The new table in its own memory: what lies from the old `brk` on. -/
def newTable (t : r_assoc δ) (m m' : Mem δ) (chains : Nat → Option Ptr) : r_assoc δ :=
  { t with chains, heap := without m'.heap (List.range m.brk), brk := m'.brk }

theorem Built.new_cell {n : Nat} (h : Built m m' cs ns chains n 0 k c calls) {j : Nat} {a : Ptr} (ha : a ∈ ns j) :
    j < n ∧ m.brk ≤ a ∧ a < m.brk + k ∧ without m'.heap (List.range m.brk) a = m'.heap a := by
  have hj : j < n := by
    by_contra hj
    rw [h.outside j (by omega)] at ha
    cases ha
  have hmem : a ∈ orderFrom ns n 0 := mem_orderFrom.2 ⟨j, by omega, by omega, ha⟩
  rw [h.cells] at hmem
  obtain ⟨h1, h2⟩ := List.mem_range'_1.1 hmem
  exact ⟨hj, h1, h2, if_neg fun hr => Nat.not_lt.2 h1 (List.mem_range.1 hr)⟩

/-- Every new element has a twin at the same place of its chain. -/
theorem Built.twin_of (hheap : ∀ j, ∀ a ∈ cs j, m.heap a = t.heap a) (h0 : c.1 = 0)
    (h : Built m m' cs ns chains t.size 0 k c calls) {j : Nat} {a : Ptr} {e' : r_assoc_el δ} (ha : a ∈ ns j)
    (he' : (newTable t m m' chains).heap a = some e') :
    ∃ i e, ∃ hi : i < (cs j).length, (ns j)[i]? = some a ∧ t.heap (cs j)[i] = some e ∧ e'.key = e.key := by
  obtain ⟨hj, -, -, hw⟩ := h.new_cell ha
  obtain ⟨hlen, hget⟩ := List.forall₂_iff_get.1 ((h.done h0).2.2 j (by omega) (by omega))
  obtain ⟨i, hi, rfl⟩ := List.getElem_of_mem ha
  obtain ⟨e, e₁, he, he₁, hco⟩ := hget i (by omega) hi
  have he₂ : without m'.heap (List.range m.brk) (ns j)[i] = some e' := he'
  rw [hw, show m'.heap (ns j)[i] = some e₁ from he₁] at he₂
  cases he₂
  refine ⟨i, e, by omega, by simp [hi], ?_, hco.1⟩
  rw [← hheap j _ (List.getElem_mem _)]
  exact he

/-- Every element of the old table has a twin. -/
theorem Built.twin_to (hr : Rep t cs) (hheap : ∀ j, ∀ a ∈ cs j, m.heap a = t.heap a) (h0 : c.1 = 0)
    (h : Built m m' cs ns chains t.size 0 k c calls) {a : Ptr} {e : r_assoc_el δ} (he : t.heap a = some e) :
    ∃ b e', (newTable t m m' chains).heap b = some e' ∧ e'.key = e.key := by
  have ha := hr.mem_hash he
  have hj := hr.lt_size ha
  obtain ⟨hlen, hget⟩ := List.forall₂_iff_get.1 ((h.done h0).2.2 (t.hash e.key) (by omega) (by omega))
  obtain ⟨i, hi, hia⟩ := List.getElem_of_mem ha
  obtain ⟨e₁, e', he₁, he', hco⟩ := hget i hi (by omega)
  have hsame : e₁ = e := by
    have he₂ : m.heap (cs (t.hash e.key))[i] = some e₁ := he₁
    rw [hia, hheap _ a ha, he] at he₂
    exact (Option.some.inj he₂).symm
  refine ⟨(ns (t.hash e.key))[i], e', ?_, by rw [hco.1, hsame]⟩
  exact ((h.new_cell (List.getElem_mem _)).2.2.2).trans he'

/-- The new table satisfies the representation invariant. -/
theorem Built.rep (hr : Rep t cs) (hheap : ∀ j, ∀ a ∈ cs j, m.heap a = t.heap a) (h0 : c.1 = 0)
    (h : Built m m' cs ns chains t.size 0 k c calls) : Rep (newTable t m m' chains) ns := by
  obtain ⟨-, hbrk, -⟩ := h.done h0
  have halloc : ∀ a e, (newTable t m m' chains).heap a = some e → a < m'.brk ∧ ∃ j, a ∈ ns j := by
    intro a e he
    obtain ⟨hlo, he⟩ : m.brk ≤ a ∧ m'.heap a = some e := by
      simpa [newTable, without] using he
    have hhi : a < m.brk + k := Nat.lt_of_not_le fun hle => by
      rw [h.fresh a hle] at he
      cases he
    have hmem : a ∈ orderFrom ns t.size 0 := h.cells ▸ List.mem_range'_1.2 ⟨hlo, hhi⟩
    obtain ⟨j, -, -, hj⟩ := mem_orderFrom.1 hmem
    exact ⟨hbrk ▸ hhi, j, hj⟩
  have hhashed : ∀ j a e', a ∈ ns j → (newTable t m m' chains).heap a = some e' → t.hash e'.key = j := by
    intro j a e' ha he'
    obtain ⟨i, e, hi, -, he, hk⟩ := h.twin_of hheap h0 ha he'
    rw [hk]
    exact hr.hashed j _ e (List.getElem_mem _) he
  constructor
  · exact hr.hash_lt
  · intro j hj
    exact (h.seg j (Nat.zero_le _) (by rw [Nat.zero_add]; exact hj)).frame fun a ha => (h.new_cell ha).2.2.2
  · intro j
    by_cases hj : j < t.size
    · have hnd : (orderFrom ns t.size 0).Nodup := h.cells ▸ List.nodup_range'
      exact (List.nodup_flatMap.1 hnd).1 j (List.mem_range'_1.2 ⟨Nat.zero_le _, by omega⟩)
    · rw [h.outside j (by omega)]
      exact List.nodup_nil
  · intro j hj
    exact h.outside j (by rw [Nat.zero_add]; exact hj)
  · intro a e he
    exact (halloc a e he).2
  · exact hhashed
  · intro a b e e' he he' hk
    obtain ⟨-, j, ha⟩ := halloc a e he
    obtain ⟨-, j', hb⟩ := halloc b e' he'
    obtain rfl : j = j' := by rw [← hhashed j a e ha he, hk, hhashed j' b e' hb he']
    obtain ⟨i, e₁, hi, hia, he₁, hk₁⟩ := h.twin_of hheap h0 ha he
    obtain ⟨i', e₂, hi', hib, he₂, hk₂⟩ := h.twin_of hheap h0 hb he'
    have heq := hr.keys _ _ e₁ e₂ he₁ he₂ (by rw [← hk₁, hk, hk₂])
    obtain rfl : i = i' := (hr.nodup j).getElem_inj_iff.1 heq
    rw [hia] at hib
    exact Option.some.inj hib
  · intro a e he
    exact (halloc a e he).1

end

end Nrappkit.Assoc
