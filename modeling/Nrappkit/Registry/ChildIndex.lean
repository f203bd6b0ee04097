import Nrappkit.Registry.Arrays
import Nrappkit.Registry.ChildCount
/-!
# Children by their index

`NR_reg_get_child_registry` counts the children, lists them into an array of
zeros with one element more than the count, and returns one of them. The count
is the only thing that can be wrong: it wraps at 2^32. A registry with that
many children is built from the names with 32 letters `a` and `b`.
-/
open Lib Nrappkit.Assoc

namespace Nrappkit.Registry.Bytewise

section
variable (qsort : List NR_registry → List NR_registry)

/-- `i` is an `unsigned int`; `child` is the caller's. -/
def NR_reg_get_child_registry (s : Reg) (parent : Bytes) (i : UInt32) (child : NR_registry) :
    Option (Except Status NR_registry) :=
  match nr_reg_local_get_child_count s parent with
  | none => none
  | some (.error r) => some (.error r)
  | some (.ok count) =>
    if i.toNat ≥ count.toNat then some (.error .R_NOT_FOUND)
    else
      let count := count.toNat + 1
      match nr_reg_local_get_children qsort s parent (List.replicate count NR_registry.zeroed) count with
      | none => none
      | some (.error r, _) => some (.error r)
      | some (.ok length, children) =>
        if i.toNat ≥ length then some (.error .R_NOT_FOUND)
        else children[i.toNat]?.map fun r => .ok (child.strncpy NR_REG_MAX_NR_REGISTRY_LEN (Nat.le_refl _) r.text)

/-- The indices below the number of children give the children, each once, in
the order of `strcasecmp`, and every other index gives `R_NOT_FOUND`. -/
def Enumerates (s : Reg) (parent : Bytes) : Prop :=
  ∃ names : List Bytes, names.Nodup ∧ (∀ n, n ∈ names ↔ Child parent n ∧ s.map n ≠ none) ∧ names.Pairwise caseLe ∧
    (∀ (i : UInt32) name, names[i.toNat]? = some name → ∀ child, ∃ out,
      NR_reg_get_child_registry qsort s parent i child = some (.ok out) ∧ out.string = some name) ∧
    ∀ i : UInt32, names.length ≤ i.toNat → ∀ child,
      NR_reg_get_child_registry qsort s parent i child = some (.error .R_NOT_FOUND)

end

section
variable {qsort : List NR_registry → List NR_registry} {s : Reg} {parent : Bytes}

/-- An index that the count does not reach. -/
theorem child_registry_beyond (h : RInv s) (hreg : s.map parent = some (some .registry)) {i : UInt32}
    (hi : (counted_names s parent).length % 2 ^ 32 ≤ i.toNat) (child : NR_registry) :
    NR_reg_get_child_registry qsort s parent i child = some (.error .R_NOT_FOUND) := by
  unfold NR_reg_get_child_registry
  rw [child_count_eq h hreg]
  dsimp only
  rw [UInt32.toNat_ofNat', if_pos hi]

/-- The element in which a name of the list stands. -/
theorem element_of_map {data : List NR_registry} {names : List Bytes} {n i : Nat} {name : Bytes}
    (hmap : (data.take n).map NR_registry.string = names.map some) (hname : names[i]? = some name) :
    ∃ r, data[i]? = some r ∧ r.string = some name := by
  have hi : ((data.take n).map NR_registry.string)[i]? = some (some name) := by
    rw [hmap, List.getElem?_map, hname]
    rfl
  rw [List.getElem?_map, Option.map_eq_some_iff] at hi
  obtain ⟨r, hr, hstring⟩ := hi
  rw [List.getElem?_take] at hr
  split at hr
  · exact ⟨r, hr, hstring⟩
  · cases hr

/-- The whole of an element is copied. -/
theorem copied_out {child r : NR_registry} {name : Bytes} (hv : nr_reg_is_valid name = .ok)
    (hstring : r.string = some name) :
    (child.strncpy NR_REG_MAX_NR_REGISTRY_LEN (Nat.le_refl _) r.text).string = some name := by
  rw [NR_registry.text_of_string hstring]
  exact readString_strncpy (valid_no_zero hv) (is_valid_iff.1 hv).1

/-- The names that are counted: the children, and at the root the deeper names. -/
theorem counted_length (h : RInv s) (parent : Bytes) : (counted_names s parent).length =
    {n | Child parent n ∧ s.map n ≠ none}.ncard + if parent = [] then {n | s.map n ≠ none ∧ dot ∈ n}.ncard else 0 := by
  rw [ncard_children h, ncard_deep h]
  by_cases hp : parent = []
  · rw [if_pos hp, hp, counted_at_root h]
  · rw [if_neg hp, counted_names_eq hp, Nat.add_zero]

/-- In every state, the indices enumerate the children of a stored registry if
and only if the count, taken modulo 2^32, is not below their number. -/
theorem enumerates_iff (h : RInv s) (hsort : Sorts qsort) (hreg : s.map parent = some (some .registry)) :
    Enumerates qsort s parent ↔ {n | Child parent n ∧ s.map n ≠ none}.ncard ≤
      ({n | Child parent n ∧ s.map n ≠ none}.ncard +
        if parent = [] then {n | s.map n ≠ none ∧ dot ∈ n}.ncard else 0) % 2 ^ 32 := by
  have hv : nr_reg_is_valid parent = .ok := valid_of_stored h (by simp [hreg])
  rw [← counted_length h, ncard_children h]
  constructor
  · rintro ⟨names, hnodup, hmem, -, hfound, -⟩
    by_contra hlt
    rw [Nat.not_le] at hlt
    have hlen := length_of_names h hnodup hmem
    -- The count itself, as an index, is refused though a child has it.
    obtain ⟨i, hi⟩ : ∃ i : UInt32, i.toNat = (counted_names s parent).length % 2 ^ 32 :=
      ⟨UInt32.ofNat (counted_names s parent).length, UInt32.toNat_ofNat'⟩
    have hget := List.getElem?_eq_getElem (show i.toNat < names.length by omega)
    obtain ⟨out, hok, -⟩ := hfound i _ hget NR_registry.zeroed
    rw [child_registry_beyond h hreg (Nat.le_of_eq hi.symm)] at hok
    cases hok
  · intro hle
    -- The array is one of zeros, so every name in it is terminated.
    have hlists : ListsChildren qsort s parent
        (List.replicate ((counted_names s parent).length % 2 ^ 32 + 1) NR_registry.zeroed) := by
      refine (lists_children_iff h hsort hv).2 fun _ i name r _ hr _ => ?_
      rw [List.eq_of_mem_replicate (List.mem_of_getElem? hr)]
      rfl
    rcases get_children_bytes h hsort hv
        (List.replicate ((counted_names s parent).length % 2 ^ 32 + 1) NR_registry.zeroed) with ⟨-, hget⟩ |
      ⟨-, hnil, -⟩ | ⟨-, hbig, -⟩
    · obtain ⟨names, hmap, hnodup, hmem, hsorted⟩ := hlists _ _ hget
      have hlen := length_of_names h hnodup hmem
      rw [List.length_replicate] at hget
      refine ⟨names, hnodup, hmem, hsorted, fun i name hname child => ?_, fun i hi child => ?_⟩
      · have hi : i.toNat < (child_names s parent).length := by
          rw [← hlen]
          exact (List.getElem?_eq_some_iff.1 hname).1
        obtain ⟨r, hr, hstring⟩ := element_of_map hmap hname
        have hvalid := valid_of_stored h ((hmem name).1 (List.mem_of_getElem? hname)).2
        refine ⟨child.strncpy NR_REG_MAX_NR_REGISTRY_LEN (Nat.le_refl _) r.text, ?_, copied_out hvalid hstring⟩
        unfold NR_reg_get_child_registry
        rw [child_count_eq h hreg]
        dsimp only
        rw [UInt32.toNat_ofNat', if_neg (by omega), hget]
        dsimp only
        rw [if_neg (Nat.not_le.2 hi), hr]
        rfl
      · -- refused by the count, or by the length of the list behind it
        by_cases hcount : (counted_names s parent).length % 2 ^ 32 ≤ i.toNat
        · exact child_registry_beyond h hreg hcount child
        · rw [hlen] at hi
          unfold NR_reg_get_child_registry
          rw [child_count_eq h hreg]
          dsimp only
          rw [UInt32.toNat_ofNat', if_neg hcount, hget]
          dsimp only
          rw [if_pos hi]
    · cases hnil
    · rw [List.length_replicate] at hbig
      omega

end

/-- The two children of `foo`, one of which has a child. -/
theorem enumerates_two :
    ∃ s, Reaches (fun _ => 0) Safe [(.set (str "foo.b") .registry, .ok), (.set (str "foo.A.c") .registry, .ok)] s ∧
      Enumerates sortTexts s (str "foo") := by
  have hex : (trace (fun _ => 0) (fun s op => Safe s op) [.set (str "foo.b") .registry,
      .set (str "foo.A.c") .registry]).any (fun x => x.1 = [.ok, .ok] &&
        x.2.map (str "foo") = some (some .registry) && (child_names x.2 (str "foo")).length = 2) = true := by decide +kernel
  obtain ⟨⟨rs, s⟩, htr, hx⟩ := (Option.any_eq_true _ _).1 hex
  simp only [Bool.and_eq_true, decide_eq_true_eq] at hx
  obtain ⟨⟨rfl, hreg⟩, htwo⟩ := hx
  have hreach : Reaches (fun _ => 0) Safe _ s := (trace_reaches htr).mono fun _ _ h => of_decide_eq_true h
  refine ⟨s, hreach, (enumerates_iff hreach.rinv sortTexts_sorts hreg).2 ?_⟩
  rw [ncard_children hreach.rinv, htwo, if_neg (by decide)]
  decide

/-- With 2^32 children the count of the root is 0. -/
theorem enumerates_none_at_wrap :
    ∃ s, Reaches (fun _ => 0) Safe (manyChildren 32 (2 ^ 32)) s ∧ Hierarchy s ∧ (child_names s []).length = 2 ^ 32 ∧
      (∀ child, NR_reg_get_child_registry sortTexts s [] 0 child = some (.error .R_NOT_FOUND)) ∧
      ¬ Enumerates sortTexts s [] := by
  obtain ⟨s, hreach, hmem⟩ := manyChildren_run (show 0 < 32 by decide) (by decide) (2 ^ 32) (Nat.le_refl _)
  obtain ⟨hlen, hdeep⟩ := manyChildren_length (by decide) (Nat.le_refl _) hreach.rinv hmem
  have hcount : (counted_names s []).length % 2 ^ 32 = 0 := by
    rw [counted_at_root hreach.rinv, hlen, hdeep]
    rfl
  have hfirst : ∀ child, NR_reg_get_child_registry sortTexts s [] 0 child = some (.error .R_NOT_FOUND) :=
    fun child => child_registry_beyond hreach.rinv hreach.tree.root (by rw [hcount]; exact Nat.zero_le _) child
  refine ⟨s, hreach, ⟨hreach.tree.root, hreach.tree.up⟩, hlen, hfirst, ?_⟩
  rintro ⟨names, hnodup, hnames, -, hfound, -⟩
  have hlength : names.length = 2 ^ 32 := (length_of_names hreach.rinv hnodup hnames).trans hlen
  have hpos : (0 : UInt32).toNat < names.length := by
    rw [hlength]
    decide
  obtain ⟨out, hok, -⟩ := hfound 0 _ (List.getElem?_eq_getElem hpos) NR_registry.zeroed
  rw [hfirst] at hok
  cases hok

end Nrappkit.Registry.Bytewise
