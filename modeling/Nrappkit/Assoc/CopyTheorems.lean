import Nrappkit.Assoc.World
import Nrappkit.Lib.Runs
/-!
# A copy is faithful and independent

What a client of `r_assoc_copy` relies on, in a memory with any number of
tables: the copy holds the same keys in the same chains, no later call on one of
the two changes what can be fetched from the other, and a copy that fails leaves
nothing behind.
-/
open Lib DLink

namespace Nrappkit.Assoc

variable {δ : Type}

/-- The elements of a chain, for at most `n` of them. -/
def chain_els (heap : Heap (r_assoc_el δ)) : Nat → Option Ptr → List (r_assoc_el δ)
  | _, none => []
  | 0, some _ => []
  | n + 1, some p => match heap p with
    | none => []
    | some el => el :: chain_els heap n el.next

/-- The elements of chain `i` of a table. -/
def World.chain (w : World δ) (h i : Nat) : List (r_assoc_el δ) :=
  match w.tables h with
  | some H => chain_els w.mem.heap w.mem.brk (H.chains i)
  | none => []

/-- No run of calls on other tables changes what can be fetched from `g`. -/
def Unaffected (fns : CopyFns δ) (w : World δ) (g : Nat) : Prop :=
  ∀ evs w', Run (wstep fns) wlegal w evs w' → (∀ ev ∈ evs, ¬ ev.1.actsOn g) → ∀ key, w'.fetch g key = w.fetch g key

/-- The memory after a copy of `h` that returned 0; `made` are the calls of copy
functions. -/
structure CopySucceeded (fns : CopyFns δ) (w w' : World δ) (h : Nat) (H : Handle) (made : List (CopyCall δ)) : Prop where
  ok : w'.Ok
  codes : ∀ c ∈ made, c.code = 0
  table : ∃ G, w'.tables w.next = some G ∧ G.bits = H.bits ∧ G.hash_func = H.hash_func ∧ G.num_elements = H.num_elements
  chains : ∀ i < 2 ^ H.bits, List.Forall₂ (CopyOf made) (w.chain h i) (w'.chain w.next i)
  source : w'.tables h = some H ∧ ∀ key, w'.fetch h key = w.fetch h key
  independent : ∀ evs w'', Run (wstep fns) wlegal w' evs w'' → ∀ g, g = h ∨ g = w.next → (w''.tables g).isSome = true →
    Unaffected fns w'' g

/-- The memory after a copy of `h` that returned the error `r`, with the
destructor calls it made. -/
structure CopyFailed (w w' : World δ) (h : Nat) (H : Handle) (r : Int) (calls : List (FnPtr × δ)) (made : List (CopyCall δ)) :
    Prop where
  ok : w'.Ok
  code : ∃ done last, made = done ++ [last] ∧ (∀ c ∈ done, c.code = 0) ∧ last.code = r
  unchanged : w'.mem.heap = w.mem.heap ∧ w'.tables = w.tables
  destroyed : calls.Perm (made.flatMap CopyCall.destroyCall)
  kept : ∀ i < 2 ^ H.bits, ∀ e ∈ w.chain h i, (∀ c ∈ made, c.new ≠ e.data) → ∀ f, (f, e.data) ∉ calls

/-! ## Runs -/

section
variable {fns : CopyFns δ} {w w' : World δ} {own : Nat → Heap (r_assoc_el δ)} {evs : List (WOp δ × WRet δ)}

/-- Every run keeps the tables' invariants and their ownership. -/
theorem World.Ok.run (hw : w.Ok) (hrun : Run (wstep fns) wlegal w evs w') : w'.Ok := by
  refine hrun.inv World.Ok hw ?_
  rintro w op r w' ⟨own, ho⟩ hl hst
  obtain ⟨r₁, w₁, own', hst', ho', -⟩ := wstep_owned fns ho hl
  rw [hst] at hst'
  cases hst'
  exact ⟨own', ho'⟩

theorem unaffected (hw : w.Ok) {g : Nat} {G : Handle} (hG : w.tables g = some G) : Unaffected fns w g := by
  intro evs w' hrun hno
  -- The handle and its entries stay as they are.
  have hkeep : (∃ own', Owned w' own') ∧ w'.tables g = some G ∧ (G.at w'.mem).assoc.entry = (G.at w.mem).assoc.entry := by
    induction hrun with
    | nil => exact ⟨hw, hG, rfl⟩
    | snoc _ hl hst ih =>
      obtain ⟨⟨own₁, ho₁⟩, hG₁, hent₁⟩ := ih fun ev hev => hno ev (List.mem_append_left _ hev)
      obtain ⟨r₂, w₂, own₂, hst', ho₂, heff⟩ := wstep_owned fns ho₁ hl
      rw [hst] at hst'
      cases hst'
      obtain ⟨hG₂, hent₂⟩ := heff.entry_frame ho₁ ho₂ (hno _ (List.mem_append_right _ (List.mem_singleton_self _))) hG₁
      exact ⟨⟨own₂, ho₂⟩, hG₂, hent₂.trans hent₁⟩
  obtain ⟨⟨own', ho'⟩, hG', hent⟩ := hkeep
  obtain ⟨own, ho⟩ := hw
  intro key
  rw [ho'.fetch_eq hG', ho.fetch_eq hG, r_assoc.get, r_assoc.get, hent]

/-! ## Chains -/

theorem chain_els_seg {heap : Heap (r_assoc_el δ)} {p hd : Option Ptr} {l : List Ptr} (hs : Seg heap p hd l none) {n : Nat}
    (hn : l.length ≤ n) : chain_els heap n hd = l.filterMap heap := by
  induction l generalizing p hd n with
  | nil =>
    have hnull : hd = none := hs
    subst hnull
    simp [chain_els]
  | cons a l ih =>
    obtain ⟨rfl, e, he, -, hs⟩ := hs
    obtain ⟨n, rfl, hle⟩ := fuel_cons hn
    have hc : chain_els heap n e.next = _ := ih hs hle
    simp [chain_els, he, hc]

theorem Laid.chain {chains : Nat → Option Ptr} {cs : Nat → List Ptr} {n : Nat} (hlaid : Laid w.mem chains cs n 0) {h : Nat}
    {H : Handle} (hH : w.tables h = some H) (hchains : H.chains = chains) {i : Nat} (hi : i < n) :
    w.chain h i = (cs i).filterMap w.mem.heap := by
  obtain ⟨hs, hn, hlt⟩ := hlaid i (Nat.zero_le _) (by rw [Nat.zero_add]; exact hi)
  simp only [World.chain, hH, hchains]
  exact chain_els_seg hs (length_le_of_lt hn hlt)

/-- Twins stand for an element and its copy. -/
theorem twins_els {calls : List (CopyCall δ)} {heap heap' : Heap (r_assoc_el δ)} {l l' : List Ptr}
    (h : List.Forall₂ (Twin calls heap heap') l l') : List.Forall₂ (CopyOf calls) (l.filterMap heap) (l'.filterMap heap') := by
  induction h with
  | nil => exact .nil
  | cons htwin _ ih =>
    obtain ⟨e, e', he, he', hco⟩ := htwin
    rw [List.filterMap_cons_some he, List.filterMap_cons_some he']
    exact .cons hco ih

/-- A represented table, alone in its memory. -/
def World.alone (t : r_assoc δ) : World δ :=
  ⟨⟨t.heap, t.brk, []⟩, Function.update (fun _ => none) 0 (some (St.handle ⟨t, r_assoc_init_iter t⟩)), 1⟩

theorem Rep.alone {t : r_assoc δ} {cs : Nat → List Ptr} (h : Rep t cs) : (World.alone t).Ok := by
  have ho : Owned (World.alone t) (Function.update (fun _ _ => none) 0 t.heap) := by
    refine owned_empty.replace ?_ (Nat.zero_le _) (fun a e he => ⟨h.fresh a e he, rfl⟩) ?_ (fun hno => by cases hno)
      (fun a ha => absurd ha (Nat.not_lt_zero a)) (Nat.zero_le _) fun hle => absurd hle (Nat.not_succ_le_zero 0)
    · funext a
      cases he : t.heap a <;> simp [join, others, he, World.empty]
    · rintro H' hH'
      cases hH'
      exact ⟨⟨_, _, h.sim⟩, fun _ _ => rfl⟩
  exact ⟨_, ho⟩

end

/-! ## The copy -/

/-- For every memory of well-formed tables, whatever the copy functions do: a
table whose elements with a destroy function have a copy function is copied
element for element into a table of its own, or the error of the first copy
function that failed is returned, the source is as it was, and what the copy
functions left, and nothing else, has been destroyed. -/
theorem r_assoc_copy_faithful (fns : CopyFns δ) {w : World δ} (hw : w.Ok) {h : Nat} {H : Handle} (hH : w.tables h = some H)
    (hd : ∀ i < 2 ^ H.bits, ∀ e ∈ w.chain h i, e.destroy.isSome = true → e.copy.isSome = true) :
    ∃ r calls w' made, wstep fns w (.copy h) = some (.copied r calls, w') ∧ w'.mem.copies = w.mem.copies ++ made ∧
      ((r = 0 ∧ calls = [] ∧ CopySucceeded fns w w' h H made) ∨ (r ≠ 0 ∧ CopyFailed w w' h H r calls made)) := by
  obtain ⟨own, ho⟩ := hw
  obtain ⟨r, w', own', hst, ho', heff⟩ := wstep_owned fns ho (show wlegal w (.copy h) from ⟨H, hH⟩)
  have hkeep := heff.entry_frame ho ho' (show ¬ WOp.actsOn h (.copy h) from id) hH
  obtain ⟨H₁, cs, c, hH₁, hrep, hlaid, hsame, hc, hbrk, hres⟩ := heff
  obtain rfl : H = H₁ := Option.some.inj (hH.symm.trans hH₁)
  -- The elements in order are those of the chains.
  have hmem : ∀ e ∈ (orderFrom cs (2 ^ H.bits) 0).filterMap w.mem.heap, ∃ i < 2 ^ H.bits, e ∈ w.chain h i := by
    intro e he
    obtain ⟨a, ha, hae⟩ := List.mem_filterMap.1 he
    obtain ⟨i, -, hi, hai⟩ := mem_orderFrom.1 ha
    rw [Nat.zero_add] at hi
    exact ⟨i, hi, by rw [hlaid.chain hH rfl hi]; exact List.mem_filterMap.2 ⟨a, hai, hae⟩⟩
  rcases hres with ⟨h0, rfl, chains, ns, k, hw', hbuilt, hnew, hown'⟩ | ⟨h0, calls, rfl, hw', hheap, hcop, hperm, hown'⟩
  · refine ⟨0, [], w', c.2.2, hst, hbuilt.copies, .inl ⟨rfl, rfl, ⟨own', ho'⟩, ?_, ?_, ?_, ?_, ?_⟩⟩
    · rw [← hc] at h0 ⊢
      exact (copyEls_ok h0).2
    · exact ⟨H.copy chains w'.mem, by rw [hw']; exact Function.update_self .., rfl, rfl, rfl⟩
    · intro i hi
      have hG : w'.tables w.next = some (H.copy chains w'.mem) := by
        rw [hw']
        exact Function.update_self ..
      have hlaid' : Laid w'.mem chains ns (2 ^ H.bits) 0 := by
        intro j h1 h2
        refine ⟨hbuilt.seg j h1 h2, hnew.nodup j, fun a ha => ?_⟩
        exact Nat.lt_of_lt_of_le (hbuilt.new_cell ha).2.2.1 hbuilt.brk
      rw [hlaid.chain hH rfl hi, hlaid'.chain hG rfl hi]
      exact twins_els ((hbuilt.done h0).2.2 i (Nat.zero_le _) (by rw [Nat.zero_add]; exact hi))
    · refine ⟨hkeep.1, fun key => ?_⟩
      rw [ho'.fetch_eq hkeep.1, ho.fetch_eq hH, r_assoc.get, r_assoc.get, hkeep.2]
    · intro evs w'' hrun g _ hg
      obtain ⟨G, hG⟩ := Option.isSome_iff_exists.1 hg
      exact unaffected (World.Ok.run ⟨own', ho'⟩ hrun) hG
  · have hdes : calls.Perm (c.2.2.flatMap CopyCall.destroyCall) := by
      refine hperm.trans (.of_eq ?_)
      rw [← hc]
      refine copyEls_destroyCalls _ fun e he => ?_
      obtain ⟨i, hi, hei⟩ := hmem e he
      exact hd i hi e hei
    refine ⟨c.1, calls, w', c.2.2, hst, hcop, .inr ⟨h0, ⟨own', ho'⟩, ?_, ⟨hheap, by rw [hw']⟩, hdes, ?_⟩⟩
    · rw [← hc] at h0 ⊢
      exact copyEls_fails h0
    · intro i hi e _ hforeign f hmem'
      obtain ⟨call, hcall, hin⟩ := List.mem_flatMap.1 (hdes.subset hmem')
      rw [CopyCall.destroyCall, List.mem_map] at hin
      obtain ⟨_, -, heq⟩ := hin
      exact hforeign call hcall (congrArg Prod.snd heq)

/-- Two elements in one chain; the copy of the first one fails with 7, and what
was copied of the second is destroyed. -/
theorem r_assoc_copy_faithful_two :
    ∃ (fns : CopyFns Nat) (w w' : World Nat) (H : Handle) (made : List (CopyCall Nat)),
      wstep fns w (.copy 0) = some (.copied 7 [(2, 120), (2, 110)], w') ∧
        CopyFailed w w' 0 H 7 [(2, 120), (2, 110)] made := by
  let fns : CopyFns Nat := fun n _ d => (if n = 1 then 7 else 0, d + 100)
  obtain ⟨w, evs, hrun, hw⟩ : ∃ (w : World Nat) (evs : List (WOp Nat × WRet Nat)), Run (wstep fns) wlegal World.empty evs w ∧
      ((w.chain 0 0).map fun e => (e.key, e.data, e.copy, e.destroy)) =
        [([2], 20, some 1, some 2), ([1], 10, some 1, some 2)] ∧
      (w.tables 0).map (·.bits) = some 0 ∧ (wstep fns w (.copy 0)).map (·.1) = some (.copied 7 [(2, 120), (2, 110)]) :=
    ⟨_, _, .snoc (.snoc (.snoc .nil
      (show wlegal _ (.create (fun _ _ => 0) 0) from fun _ => Nat.one_pos) rfl)
      (show wlegal _ (.on 0 (.insert [1] 10 (some 1) (some 2) .R_ASSOC_NEW)) from ⟨_, rfl, rfl⟩) rfl)
      (show wlegal _ (.on 0 (.insert [2] 20 (some 1) (some 2) .R_ASSOC_NEW)) from ⟨_, rfl, rfl⟩) rfl, rfl, rfl, rfl⟩
  obtain ⟨hchain, hbits, hret⟩ := hw
  obtain ⟨H, hH, hbits⟩ := Option.map_eq_some_iff.1 hbits
  have hd : ∀ i < 2 ^ H.bits, ∀ e ∈ w.chain 0 i, e.destroy.isSome = true → e.copy.isSome = true := by
    intro i hi e he _
    rw [hbits, pow_zero, Nat.lt_one_iff] at hi
    subst hi
    have hmem := List.mem_map_of_mem (f := fun e : r_assoc_el Nat => (e.key, e.data, e.copy, e.destroy)) he
    rw [hchain] at hmem
    simp only [List.mem_cons, Prod.mk.injEq, List.not_mem_nil, or_false] at hmem
    rcases hmem with ⟨-, -, hc, -⟩ | ⟨-, -, hc, -⟩ <;> rw [hc] <;> rfl
  obtain ⟨r, calls, w', made, hst, -, hres⟩ := r_assoc_copy_faithful fns (World.Ok.run ⟨_, owned_empty⟩ hrun) hH hd
  rw [hst, Option.map_some, Option.some.injEq, WRet.copied.injEq] at hret
  obtain ⟨rfl, rfl⟩ := hret
  rcases hres with ⟨h0, -⟩ | ⟨-, hfail⟩
  · cases h0
  · exact ⟨fns, w, w', H, made, hst, hfail⟩

end Nrappkit.Assoc
