import Nrappkit.Registry.Children
import Nrappkit.Registry.LocalProgress
import Mathlib.Data.Set.Card
/-!
# The child count

`nr_reg_local_count_children` and `nr_reg_local_find_children` test the same
names in two ways. Below the root the first counts the names at every depth;
the counter is an `unsigned int`.
-/
open Lib Nrappkit.Assoc

namespace Nrappkit.Registry

/-! ## Numbers of names -/

theorem ncard_of_list {l : List Bytes} (hn : l.Nodup) {S : Set Bytes} (hmem : ∀ n, n ∈ l ↔ n ∈ S) : S.ncard = l.length := by
  have hS : S = ((l.toFinset : Finset Bytes) : Set Bytes) := by
    ext n
    rw [← hmem, Finset.mem_coe, List.mem_toFinset]
  rw [hS, Set.ncard_coe_finset, List.toFinset_card_of_nodup hn]

section
variable {s : Reg} {parent : Bytes}

theorem ncard_children (h : RInv s) : {n | Child parent n ∧ s.map n ≠ none}.ncard = (child_names s parent).length :=
  ncard_of_list (children_nodup h) fun _ => mem_children h

/-- The length of a list of the children. -/
theorem length_of_names (h : RInv s) {names : List Bytes} (hnodup : names.Nodup)
    (hmem : ∀ n, n ∈ names ↔ Child parent n ∧ s.map n ≠ none) : names.length = (child_names s parent).length := by
  rw [← ncard_children h]
  exact (ncard_of_list hnodup fun n => hmem n).symm

/-- The stored names more than one level below the root. -/
def deep_names (s : Reg) : List Bytes := (stored_names s).filter fun n => dot ∈ n

theorem ncard_deep (h : RInv s) : {n | s.map n ≠ none ∧ dot ∈ n}.ncard = (deep_names s).length := by
  refine ncard_of_list ((iter_reads h).1.filter _) fun n => ?_
  rw [List.mem_filter, (iter_reads h).2.1, decide_eq_true_eq, Set.mem_ofPred_eq]

/-- At the root the names with a dot are counted with the children. -/
theorem counted_at_root (h : RInv s) :
    (counted_names s []).length = (child_names s []).length + (deep_names s).length := by
  have hall : (stored_names s).filter (covers []) = stored_names s :=
    List.filter_eq_self.2 fun n _ => covers_iff.2 (.inl rfl)
  -- The test of the count looks at the byte at position 0, which is never a dot.
  have hcount : ∀ n ∈ stored_names s, counted [] n = (isChild [] n || decide (dot ∈ n)) := by
    intro n hn
    have hv := valid_of_stored h (((iter_reads h).2.1 n).1 hn)
    have hchild : covers [] n = true ∧ isChild [] n = true ↔ Child [] n := covers_isChild hv
    rw [Child, if_pos rfl, beforeLastDot_none] at hchild
    rw [Bool.eq_iff_iff, Bool.or_eq_true, decide_eq_true_eq]
    constructor
    · intro hc
      by_cases hdot : dot ∈ n
      · exact .inr hdot
      · refine .inl (hchild.2 ⟨?_, hdot⟩).2
        rintro rfl
        cases hc
    · rintro (hc | hdot)
      · exact isChild_counted hc
      · have hhead : n[0]? ≠ some dot := by
          rw [← List.head?_eq_getElem?]
          exact (is_valid_iff.1 hv).2.1
        rw [counted, List.length_nil, if_neg hhead]
        simp [List.ne_nil_of_mem hdot]
  have hdisj : ∀ n ∈ stored_names s, isChild [] n = true → dot ∉ n := by
    intro n hn hc
    have hv := valid_of_stored h (((iter_reads h).2.1 n).1 hn)
    have hchild : Child [] n := (covers_isChild hv).1 ⟨covers_iff.2 (.inl rfl), hc⟩
    rw [Child, if_pos rfl, beforeLastDot_none] at hchild
    exact hchild.2
  rw [counted_names, child_names, deep_names, hall, List.filter_congr hcount]
  generalize stored_names s = l at hdisj
  induction l with
  | nil => rfl
  | cons n l ih =>
    have ih := ih fun m hm => hdisj m (List.mem_cons_of_mem _ hm)
    by_cases hc : isChild [] n = true
    · have hdot : dot ∉ n := hdisj n List.mem_cons_self hc
      simp only [List.filter_cons, hc, hdot, Bool.true_or, decide_false, if_true, List.length_cons, Bool.false_eq_true,
        if_false]
      omega
    · rw [Bool.not_eq_true] at hc
      by_cases hdot : dot ∈ n
      · simp only [List.filter_cons, hc, hdot, Bool.false_or, decide_true, if_true, List.length_cons, Bool.false_eq_true,
          if_false]
        omega
      · simpa only [List.filter_cons, hc, hdot, Bool.false_or, decide_false, Bool.false_eq_true, if_false] using ih

/-! ## Count and list -/

/-- The count is the number of names that are listed with enough room, and
these are the children. -/
def CountAgrees (s : Reg) (parent : Bytes) : Prop :=
  ∃ count names, nr_reg_local_get_child_count s parent = some (.ok count) ∧
    (∃ room, ∀ size ≥ room, nr_reg_local_get_children s parent size = some (.ok names)) ∧
    names.Nodup ∧ (∀ n, n ∈ names ↔ Child parent n ∧ s.map n ≠ none) ∧ count.toNat = names.length

/-- In every state, the count of a stored registry agrees with its list if and
only if the children fit the counter and, at the root, the deeper names are
none (or a multiple of what the counter can count). -/
theorem count_agrees_iff (h : RInv s) (hreg : s.map parent = some (some .registry)) :
    CountAgrees s parent ↔ {n | Child parent n ∧ s.map n ≠ none}.ncard < 2 ^ 32 ∧
      (parent = [] → 2 ^ 32 ∣ {n | s.map n ≠ none ∧ dot ∈ n}.ncard) := by
  have hv : nr_reg_is_valid parent = .ok := valid_of_stored h (by simp [hreg])
  have hlist : ∀ size > (child_names s parent).length,
      nr_reg_local_get_children s parent size = some (.ok (qsort (child_names s parent))) := by
    intro size hsize
    rw [get_children_eq h hv (Nat.zero_lt_of_lt hsize), if_pos hsize]
  have hagree : CountAgrees s parent ↔ (counted_names s parent).length % 2 ^ 32 = (child_names s parent).length := by
    -- Any two lengths that are large enough list the same names.
    rw [← UInt32.toNat_ofNat', ← (qsort_perm (child_names s parent)).length_eq]
    constructor
    · rintro ⟨count, names, hcount, ⟨room, hroom⟩, -, -, heq⟩
      rw [child_count_eq h hreg] at hcount
      cases hcount
      have hbig := hroom (room + ((child_names s parent).length + 1)) (Nat.le_add_right _ _)
      rw [hlist _ (by omega)] at hbig
      cases hbig
      exact heq
    · intro heq
      refine ⟨_, _, child_count_eq h hreg, ⟨_, hlist⟩, (qsort_perm _).nodup_iff.2 (children_nodup h), fun n => ?_, heq⟩
      exact (qsort_perm _).mem_iff.trans (mem_children h)
  rw [hagree, ncard_children h, ncard_deep h]
  by_cases hp : parent = []
  · subst hp
    rw [counted_at_root h, eq_self, true_imp_iff]
    omega
  · rw [counted_names_eq hp]
    simp only [hp, false_imp_iff, and_true]
    omega

/-- `foo` has two children, one of them with a child of its own. -/
theorem count_agrees_two :
    ∃ s, Reaches (fun _ => 0) Safe [(.set (str "foo.x") (.scalar (._nr_int4 1)), .ok),
      (.set (str "foo.y.z") (.scalar (._nr_int4 2)), .ok)] s ∧ CountAgrees s (str "foo") := by
  have hex : (trace (fun _ => 0) (fun s op => Safe s op) [.set (str "foo.x") (.scalar (._nr_int4 1)),
      .set (str "foo.y.z") (.scalar (._nr_int4 2))]).any (fun x => x.1 = [.ok, .ok] &&
        x.2.map (str "foo") = some (some .registry) && (child_names x.2 (str "foo")).length = 2) = true := by decide +kernel
  obtain ⟨⟨rs, s⟩, htr, hx⟩ := (Option.any_eq_true _ _).1 hex
  simp only [Bool.and_eq_true, decide_eq_true_eq] at hx
  obtain ⟨⟨rfl, hreg⟩, htwo⟩ := hx
  have hreach : Reaches (fun _ => 0) Safe _ s := (trace_reaches htr).mono fun _ _ h => of_decide_eq_true h
  have hfew : {n | Child (str "foo") n ∧ s.map n ≠ none}.ncard < 2 ^ 32 := by
    rw [ncard_children hreach.rinv, htwo]
    decide
  exact ⟨s, hreach, (count_agrees_iff hreach.rinv hreg).2 ⟨hfew, fun h => absurd h (by decide)⟩⟩

/-- With `a.b` stored the root has the child `a` and the count 2. -/
theorem count_disagrees_at_root :
    ∃ s, Reaches (fun _ => 0) Safe [(.set (str "a.b") (.scalar (._nr_int4 1)), .ok)] s ∧ Hierarchy s ∧
      nr_reg_local_get_child_count s [] = some (.ok 2) ∧
      nr_reg_local_get_children s [] 10 = some (.ok [str "a"]) ∧ ¬ CountAgrees s [] := by
  have hex : (trace (fun _ => 0) (fun s op => Safe s op) [.set (str "a.b") (.scalar (._nr_int4 1))]).any (fun x =>
      x.1 = [.ok] && nr_reg_local_get_child_count x.2 [] = some (.ok 2) &&
        child_names x.2 [] = [str "a"]) = true := by decide +kernel
  obtain ⟨⟨rs, s⟩, htr, hx⟩ := (Option.any_eq_true _ _).1 hex
  simp only [Bool.and_eq_true, decide_eq_true_eq] at hx
  obtain ⟨⟨rfl, hcount⟩, hkids⟩ := hx
  have hreach : Reaches (fun _ => 0) Safe _ s := (trace_reaches htr).mono fun _ _ h => of_decide_eq_true h
  have hlist : ∀ size > 1, nr_reg_local_get_children s [] size = some (.ok [str "a"]) := by
    intro size hsize
    rw [get_children_eq hreach.rinv rfl (Nat.zero_lt_of_lt hsize), hkids, if_pos (show [str "a"].length < size from hsize)]
    rfl
  refine ⟨s, hreach, ⟨hreach.tree.root, hreach.tree.up⟩, hcount, hlist 10 (by decide), ?_⟩
  rintro ⟨count, names, hcount', ⟨room, hroom⟩, -, -, heq⟩
  rw [hcount] at hcount'
  cases hcount'
  have hbig := hroom (room + 2) (Nat.le_add_right _ _)
  rw [hlist _ (by omega)] at hbig
  cases hbig
  cases heq

end

/-! ## Registries with many children -/

/-- Store the first `k` names with `n` letters. -/
def manyChildren (n k : Nat) : List (RegOp × Status) := (List.range k).map fun i => (.set (letters n i) .registry, .ok)

/-- Such a registry holds the root and these names. -/
theorem manyChildren_run {n : Nat} (hpos : 0 < n) (hn : n < NR_REG_MAX_NR_REGISTRY_LEN) (k : Nat) (hk : k ≤ 2 ^ n) :
    ∃ s, Reaches (fun _ => 0) Safe (manyChildren n k) s ∧
      ∀ m, s.map m ≠ none ↔ m = [] ∨ ∃ i < k, m = letters n i := by
  induction k with
  | zero =>
    obtain ⟨s₀, hi, -⟩ := init_returns
    obtain ⟨-, hmap, -⟩ := init_spec hi
    refine ⟨s₀, ⟨s₀, hi, .nil⟩, fun m => ?_⟩
    rw [hmap]
    simp
  | succ k ih =>
    obtain ⟨s, hreach, hmem⟩ := ih (by omega)
    have hdot : beforeLastDot (letters n k) = none := beforeLastDot_none.2 (dot_notMem_letters n k)
    have hne : letters n k ≠ [] := by
      rw [← List.length_pos_iff, letters_length]
      exact hpos
    have hnew : s.map (letters n k) = none := by
      by_contra hst
      rcases (hmem _).1 hst with h | ⟨i, hi, h⟩
      · exact hne h
      · exact absurd (letters_inj (by omega) (by omega) h) (by omega)
    have hsafe : Safe s (.set (letters n k) .registry) := by
      show strands s (letters n k) = false
      simp [strands, parentsFail_none hdot]
    obtain ⟨r, s', hst⟩ := safe_run_returns hreach (.set (letters n k) .registry)
    have hout : Outcome s (letters n k) .registry (set (fun _ => 0) s (letters n k) .registry) :=
      set_new hreach.rinv (letters_valid hn k) (map_none.1 hnew) .registry
    -- Without a dot there are no ancestors that could be in the way.
    have hr : r = .ok := by
      by_contra hfail
      have := hout.fail r s' hst hfail
      rw [parentsFail_none hdot] at this
      cases this
    subst hr
    obtain ⟨-, hcreated⟩ := hout.ok s' hst
    obtain ⟨s₀, hi, hrun⟩ := hreach
    refine ⟨s', ⟨s₀, hi, ?_⟩, fun m => ?_⟩
    · rw [manyChildren, List.range_succ, List.map_append]
      exact hrun.snoc hsafe hst
    · rw [hcreated.map, newAncestors_none hdot]
      dsimp only
      by_cases hm : m = letters n k
      · rw [if_pos hm, hm]
        exact iff_of_true (by simp) (.inr ⟨k, Nat.lt_succ_self k, rfl⟩)
      · rw [if_neg hm, if_neg List.not_mem_nil, hmem]
        apply or_congr_right
        constructor
        · rintro ⟨i, hi, h⟩
          exact ⟨i, Nat.lt_succ_of_lt hi, h⟩
        · rintro ⟨i, hi, h⟩
          rcases Nat.lt_succ_iff_lt_or_eq.1 hi with hi | rfl
          · exact ⟨i, hi, h⟩
          · exact absurd h hm

/-- All these names are children of the root. -/
theorem manyChildren_length {n k : Nat} (hpos : 0 < n) (hk : k ≤ 2 ^ n) {s : Reg} (h : RInv s)
    (hmem : ∀ m, s.map m ≠ none ↔ m = [] ∨ ∃ i < k, m = letters n i) :
    (child_names s []).length = k ∧ deep_names s = [] := by
  have hne : ∀ i, letters n i ≠ [] := by
    intro i
    rw [← List.length_pos_iff, letters_length]
    exact hpos
  constructor
  · have hnodup : ((List.range k).map (letters n)).Nodup := by
      refine List.Nodup.map_on ?_ List.nodup_range
      intro i hi j hj heq
      rw [List.mem_range] at hi hj
      exact letters_inj (by omega) (by omega) heq
    have hall : ∀ m, m ∈ (List.range k).map (letters n) ↔ m ∈ {m | Child [] m ∧ s.map m ≠ none} := by
      intro m
      rw [List.mem_map, Set.mem_ofPred_eq, hmem, Child, if_pos rfl]
      constructor
      · rintro ⟨i, hi, rfl⟩
        exact ⟨⟨hne i, beforeLastDot_none.2 (dot_notMem_letters n i)⟩, .inr ⟨i, List.mem_range.1 hi, rfl⟩⟩
      · rintro ⟨⟨hm, -⟩, h | ⟨i, hi, rfl⟩⟩
        · exact absurd h hm
        · exact ⟨i, List.mem_range.2 hi, rfl⟩
    rw [← ncard_children h, ncard_of_list hnodup hall, List.length_map, List.length_range]
  · refine List.filter_eq_nil_iff.2 fun m hm => ?_
    rw [decide_eq_true_eq]
    rcases (hmem m).1 (((iter_reads h).2.1 m).1 hm) with rfl | ⟨i, -, rfl⟩
    · exact List.not_mem_nil
    · exact dot_notMem_letters n i

end Nrappkit.Registry
