import Nrappkit.Lib.Buffer
import Nrappkit.Registry.Children
/-!
# Arrays of names

The listing of children, down to the bytes of the caller's array. Its elements
are arrays of 128 bytes that hold anything before the call. A name is copied
into the first 127 of them, so a name of that length ends with the byte that
was there. `qsort` is any function that sorts by `strcasecmp`; a string that is
not terminated is compared up to the end of its element.
-/
open Lib Nrappkit.Assoc

namespace Nrappkit.Registry.Bytewise

/-! ## The functions -/

/-- The type of the array elements, `char [NR_REG_MAX_NR_REGISTRY_LEN]`. -/
abbrev NR_registry := { block : Bytes // block.length = NR_REG_MAX_NR_REGISTRY_LEN }

namespace NR_registry

/-- The string in the element. -/
def string (r : NR_registry) : Option Bytes := readString r.1

/-- The bytes that are compared. -/
def text (r : NR_registry) : Bytes := cString r.1

/-- `strncpy(r, name, n)` -/
def strncpy (n : Nat) (hn : n ≤ NR_REG_MAX_NR_REGISTRY_LEN) (r : NR_registry) (name : Bytes) : NR_registry :=
  ⟨Lib.strncpy n r.1 name, by rw [strncpy_length (by rw [r.2]; exact hn), r.2]⟩

/-- What `nr_reg_local_find_children` leaves in an element. -/
def copy : NR_registry → Bytes → NR_registry := strncpy (NR_REG_MAX_NR_REGISTRY_LEN - 1) (by decide)

/-- An element of zeros, as `RCALLOC` leaves it. -/
def zeroed : NR_registry := ⟨List.replicate NR_REG_MAX_NR_REGISTRY_LEN 0, List.length_replicate⟩

end NR_registry

/-- The function sorts by `strcasecmp`. -/
structure Sorts (qsort : List NR_registry → List NR_registry) : Prop where
  perm : ∀ l, (qsort l).Perm l
  sorted : ∀ l, (qsort l).Pairwise fun a b => caseLe a.text b.text

structure nr_reg_find_children_arg where
  size : Nat
  children : List NR_registry
  length : Nat

/-- A write behind the end of the array is undefined. -/
def nr_reg_local_find_children (pfx : Bytes) (arg : nr_reg_find_children_arg) (s : Reg) (_ : r_assoc_iterator)
    (name : Bytes) (_ : Ptr) : Option (Status × nr_reg_find_children_arg × Reg) :=
  if isChild pfx name then
    match arg.children[arg.length]? with
    | none => none
    | some r =>
      let arg := { arg with children := arg.children.set arg.length (r.copy name), length := arg.length + 1 }
      some (if arg.length ≥ arg.size then .R_INTERRUPTED else .ok, arg, s)
  else some (.ok, arg, s)

section
variable (qsort : List NR_registry → List NR_registry)

/-- The length that is returned, and the array. -/
def nr_reg_local_get_children (s : Reg) (parent : Bytes) (data : List NR_registry) (size : Nat) :
    Option (Except Status Nat × List NR_registry) :=
  if nr_reg_is_valid parent ≠ .ok then some (.error (nr_reg_is_valid parent), data)
  else
    (nr_reg_local_iter (nr_reg_local_find_children parent) parent { size, children := data, length := 0 } s).map fun
      | (.ok, arg, _) => (.ok arg.length, qsort (arg.children.take arg.length) ++ arg.children.drop arg.length)
      | (.R_INTERRUPTED, arg, _) => (.error .R_BAD_ARGS, arg.children)
      | (r, arg, _) => (.error r, arg.children)

end

/-! ## One name -/

section
variable {r : NR_registry} {name : Bytes}

theorem NR_registry.text_of_string (h : r.string = some name) : r.text = name := by
  unfold NR_registry.string readString at h
  split at h
  · cases h
    rfl
  · cases h

/-- A name is read back from an element unless it has 127 bytes and the last
byte of the element was not zero. -/
theorem copy_string (hv : nr_reg_is_valid name = .ok) : (r.copy name).string =
    if name.length = NR_REG_MAX_NR_REGISTRY_LEN - 1 ∧ r.1.getLast? ≠ some 0 then none else some name := by
  have h0 := valid_no_zero hv
  have hlen := (is_valid_iff.1 hv).1
  rcases Nat.lt_or_eq_of_le (Nat.le_sub_one_of_lt hlen) with hlt | heq
  · rw [if_neg fun h => Nat.ne_of_lt hlt h.1]
    exact readString_strncpy h0 hlt
  · have hread : (r.copy name).string = (readString (r.1.drop (NR_REG_MAX_NR_REGISTRY_LEN - 1))).map (name ++ ·) :=
      readString_strncpy_full h0 heq
    obtain ⟨b, hb⟩ : ∃ b, r.1.drop (NR_REG_MAX_NR_REGISTRY_LEN - 1) = [b] := by
      rw [← List.length_eq_one_iff, List.length_drop, r.2]
      decide
    have hlast : r.1.getLast? = some b := by
      rw [← List.take_append_drop (NR_REG_MAX_NR_REGISTRY_LEN - 1) r.1, hb, List.getLast?_concat]
    rw [hread, hb, hlast]
    by_cases hz : b = 0
    · simp [hz, readString]
    · rw [if_pos ⟨heq, fun h => hz (Option.some.inj h)⟩, Option.map_eq_none_iff, readString_eq_none, List.mem_singleton]
      exact Ne.symm hz

end

/-! ## The walk -/

/-- What `nr_reg_local_find_children` does with a name. -/
def fillOne (pfx : Bytes) (arg : nr_reg_find_children_arg) (name : Bytes) : Option (Status × nr_reg_find_children_arg) :=
  if isChild pfx name then
    match arg.children[arg.length]? with
    | none => none
    | some r =>
      let arg := { arg with children := arg.children.set arg.length (r.copy name), length := arg.length + 1 }
      some (if arg.length ≥ arg.size then .R_INTERRUPTED else .ok, arg)
  else some (.ok, arg)

theorem find_reads (pfx : Bytes) : nr_reg_local_find_children pfx = reads (fillOne pfx) := by
  funext arg s iter name p
  unfold nr_reg_local_find_children reads fillOne
  split
  · split <;> rfl
  · rfl

/-- The elements with names copied into them. -/
def filled (data : List NR_registry) (names : List Bytes) : List NR_registry := List.zipWith NR_registry.copy data names

theorem filled_length (data : List NR_registry) {names : List Bytes} (h : names.length ≤ data.length) :
    (filled data names).length = names.length := by
  rw [filled, List.length_zipWith, Nat.min_eq_right h]

/-- Names that are listed have a place each. -/
theorem length_of_fits {names : List Bytes} {n : Nat} (h : names = [] ∨ names.length < n) : names.length ≤ n := by
  rcases h with rfl | hlt
  · exact Nat.zero_le n
  · exact Nat.le_of_lt hlt

/-- The walk fills the elements one after the other, and stops at the last. -/
theorem walk_fill (pfx : Bytes) (names : List Bytes) {size : Nat} {done free : List NR_registry} (hfree : free ≠ [])
    (hsize : done.length + free.length = size) :
    ((names.filter (isChild pfx)).length < free.length ∧
      walkNames (fillOne pfx) ⟨size, done ++ free, done.length⟩ names = some (.ok, ⟨size,
        done ++ (filled free (names.filter (isChild pfx)) ++ free.drop (names.filter (isChild pfx)).length),
        done.length + (names.filter (isChild pfx)).length⟩)) ∨
    (free.length ≤ (names.filter (isChild pfx)).length ∧ ∃ arg,
      walkNames (fillOne pfx) ⟨size, done ++ free, done.length⟩ names = some (.R_INTERRUPTED, arg)) := by
  induction names generalizing done free with
  | nil =>
    refine .inl ⟨List.length_pos_iff.2 hfree, ?_⟩
    simp [walkNames, filled]
  | cons name names ih =>
    rw [walkNames, fillOne]
    by_cases hc : isChild pfx name = true
    · obtain ⟨r, free, rfl⟩ := List.exists_cons_of_ne_nil hfree
      have hget : (done ++ r :: free)[done.length]? = some r := by simp
      have hset : (done ++ r :: free).set done.length (r.copy name) = (done ++ [r.copy name]) ++ free := by simp
      have hlen : (done ++ [r.copy name]).length = done.length + 1 := List.length_append
      rw [if_pos hc, List.filter_cons_of_pos hc, List.length_cons, List.length_cons]
      rw [List.length_cons] at hsize
      dsimp only
      rw [hget]
      dsimp only
      rw [hset]
      by_cases hlast : free = []
      · rw [if_pos (by rw [hlast] at hsize; simpa using Nat.le_of_eq hsize.symm), hlast]
        exact .inr ⟨by simp, _, rfl⟩
      · have hpos : 0 < free.length := List.length_pos_iff.2 hlast
        rw [if_neg (by omega)]
        dsimp only
        have hsize' : (done ++ [r.copy name]).length + free.length = size := by
          rw [hlen]
          omega
        rw [← hlen]
        rcases ih hlast hsize' with ⟨hlt, hw⟩ | ⟨hle, hw⟩
        · refine .inl ⟨by omega, ?_⟩
          rw [hw, hlen, List.append_assoc, Nat.add_assoc, Nat.add_comm 1]
          rfl
        · exact .inr ⟨by omega, hw⟩
    · rw [if_neg hc, List.filter_cons_of_neg hc]
      exact ih hfree hsize

/-- Without room the first child is written behind the end. -/
theorem walk_fill_nil (pfx : Bytes) (names : List Bytes) :
    walkNames (fillOne pfx) ⟨0, [], 0⟩ names = if names.filter (isChild pfx) = [] then some (.ok, ⟨0, [], 0⟩) else none := by
  induction names with
  | nil => rfl
  | cons name names ih =>
    rw [walkNames, fillOne]
    by_cases hc : isChild pfx name = true
    · rw [if_pos hc, List.filter_cons_of_pos hc, if_neg (List.cons_ne_nil _ _)]
      rfl
    · rw [if_neg hc, List.filter_cons_of_neg hc]
      exact ih

section
variable {qsort : List NR_registry → List NR_registry} {s : Reg} {parent : Bytes} {data : List NR_registry}

/-- What a listing does with an array of every size. -/
theorem get_children_bytes (h : RInv s) (hsort : Sorts qsort) (hv : nr_reg_is_valid parent = .ok)
    (data : List NR_registry) :
    ((child_names s parent = [] ∨ (child_names s parent).length < data.length) ∧
      nr_reg_local_get_children qsort s parent data data.length = some (.ok (child_names s parent).length,
        qsort (filled data (child_names s parent)) ++ data.drop (child_names s parent).length)) ∨
    (child_names s parent ≠ [] ∧ data = [] ∧ nr_reg_local_get_children qsort s parent data data.length = none) ∨
    (data ≠ [] ∧ data.length ≤ (child_names s parent).length ∧
      ∃ data', nr_reg_local_get_children qsort s parent data data.length = some (.error .R_BAD_ARGS, data')) := by
  have hnil : qsort [] = [] := (hsort.perm []).eq_nil
  unfold nr_reg_local_get_children
  rw [if_neg (by simp [hv]), find_reads, (iter_reads h).2.2]
  by_cases hdata : data = []
  · subst hdata
    have hw := walk_fill_nil parent ((stored_names s).filter (covers parent))
    rw [← child_names] at hw
    rw [List.length_nil, hw]
    by_cases hkids : child_names s parent = []
    · refine .inl ⟨.inl hkids, ?_⟩
      rw [if_pos hkids, hkids]
      simp [filled, hnil]
    · exact .inr (.inl ⟨hkids, rfl, by rw [if_neg hkids]; rfl⟩)
  · have hsize : ([] : List NR_registry).length + data.length = data.length := Nat.zero_add _
    rcases walk_fill parent ((stored_names s).filter (covers parent)) hdata hsize with ⟨hlt, hw⟩ | ⟨hle, arg, hw⟩
    · rw [← child_names] at hlt hw
      rw [List.nil_append, List.length_nil, List.nil_append, Nat.zero_add] at hw
      have hfill : (filled data (child_names s parent)).length = (child_names s parent).length := by
        rw [filled, List.length_zipWith, Nat.min_eq_right (Nat.le_of_lt hlt)]
      refine .inl ⟨.inr hlt, ?_⟩
      rw [hw, Option.map_some, Option.map_some]
      dsimp only
      rw [← hfill, List.take_left, List.drop_left, hfill]
    · rw [← child_names] at hle
      rw [List.nil_append, List.length_nil] at hw
      rw [hw]
      exact .inr (.inr ⟨hdata, hle, arg.children, rfl⟩)

/-- The listing of names says which status and which length the listing of
bytes returns. -/
theorem get_children_refines (h : RInv s) (hsort : Sorts qsort) (hv : nr_reg_is_valid parent = .ok) (hdata : data ≠ []) :
    (nr_reg_local_get_children qsort s parent data data.length).map (fun r => r.1) =
      (Registry.nr_reg_local_get_children s parent data.length).map fun r => r.map List.length := by
  have hlen : (Registry.qsort (child_names s parent)).length = (child_names s parent).length :=
    (qsort_perm _).length_eq
  have hpos : 0 < data.length := List.length_pos_iff.2 hdata
  rw [get_children_eq h hv hpos]
  rcases get_children_bytes h hsort hv data with ⟨hfits, hget⟩ | ⟨-, hnil, -⟩ | ⟨-, hle, data', hget⟩
  · have hlt : (child_names s parent).length < data.length := by
      rcases hfits with hkids | hlt
      · rw [hkids]
        exact hpos
      · exact hlt
    rw [hget, if_pos hlt, Option.map_some, Option.map_some, Except.map, hlen]
  · exact absurd hnil hdata
  · rw [hget, if_neg (Nat.not_lt.2 hle)]
    rfl

/-! ## What the array holds -/

/-- If the call returns 0, the elements up to the length hold the names of the
children, each once, in the order of `strcasecmp`. -/
def ListsChildren (qsort : List NR_registry → List NR_registry) (s : Reg) (parent : Bytes) (data : List NR_registry) :
    Prop :=
  ∀ length data', nr_reg_local_get_children qsort s parent data data.length = some (.ok length, data') →
    ∃ names : List Bytes, (data'.take length).map NR_registry.string = names.map some ∧ names.Nodup ∧
      (∀ n, n ∈ names ↔ Child parent n ∧ s.map n ≠ none) ∧ names.Pairwise caseLe

/-- The elements that a listing fills. -/
theorem mem_filled {names : List Bytes} {x : NR_registry} (hx : x ∈ filled data names) :
    ∃ (i : Nat) (r : NR_registry) (name : Bytes), data[i]? = some r ∧ names[i]? = some name ∧ x = r.copy name := by
  obtain ⟨i, hi⟩ := List.mem_iff_getElem?.1 hx
  obtain ⟨r, name, hr, hn, hcopy⟩ := List.getElem?_zipWith_eq_some.1 hi
  exact ⟨i, r, name, hr, hn, hcopy.symm⟩

theorem filled_text {names : List Bytes} (hlen : names.length ≤ data.length)
    (htext : ∀ (i : Nat) (r : NR_registry) (name : Bytes), data[i]? = some r → names[i]? = some name →
      (r.copy name).text = name) :
    (filled data names).map NR_registry.text = names := by
  apply List.ext_getElem?
  intro i
  rw [filled, List.getElem?_map, List.getElem?_zipWith]
  cases hn : names[i]? with
  | none => cases data[i]? <;> rfl
  | some name =>
    have hi : i < data.length := Nat.lt_of_lt_of_le (List.getElem?_eq_some_iff.1 hn).1 hlen
    rw [List.getElem?_eq_getElem hi]
    dsimp only [Option.map_some]
    rw [htext i _ name (List.getElem?_eq_getElem hi) hn]

/-- In every state and for every content of the array, what a listing that
returns 0 leaves is the sorted list of the children if and only if no name of
127 bytes went to an element whose last byte was not zero. -/
theorem lists_children_iff (h : RInv s) (hsort : Sorts qsort) (hv : nr_reg_is_valid parent = .ok) :
    ListsChildren qsort s parent data ↔ ((child_names s parent).length < data.length →
      ∀ (i : Nat) (name : Bytes) (r : NR_registry), (child_names s parent)[i]? = some name → data[i]? = some r →
        name.length = NR_REG_MAX_NR_REGISTRY_LEN - 1 → r.1.getLast? = some 0) := by
  have hvalid : ∀ (i : Nat) (name : Bytes), (child_names s parent)[i]? = some name → nr_reg_is_valid name = .ok := by
    intro i name hn
    exact valid_of_stored h ((mem_children h).1 (List.mem_of_getElem? hn)).2
  have hnil : qsort [] = [] := (hsort.perm []).eq_nil
  have hlength : (child_names s parent).length ≤ data.length →
      (qsort (filled data (child_names s parent))).length = (child_names s parent).length := by
    intro hle
    rw [(hsort.perm _).length_eq, filled_length data hle]
  constructor
  · intro hlists hlt i name r hn hr hlen
    rcases get_children_bytes h hsort hv data with ⟨-, hget⟩ | ⟨-, hnone, -⟩ | ⟨-, hle, -⟩
    · obtain ⟨names, hmap, -⟩ := hlists _ _ hget
      rw [← hlength (Nat.le_of_lt hlt), List.take_left] at hmap
      have hmem : r.copy name ∈ qsort (filled data (child_names s parent)) := by
        rw [(hsort.perm _).mem_iff]
        exact List.mem_iff_getElem?.2 ⟨i, List.getElem?_zipWith_eq_some.2 ⟨r, name, hr, hn, rfl⟩⟩
      have hstring : (r.copy name).string ∈ names.map some := by
        rw [← hmap]
        exact List.mem_map_of_mem hmem
      -- the copy kept the byte behind the name
      by_contra hlast
      rw [copy_string (hvalid i name hn), if_pos ⟨hlen, hlast⟩] at hstring
      obtain ⟨_, -, hsome⟩ := List.mem_map.1 hstring
      cases hsome
    · rw [hnone] at hlt
      cases hlt
    · omega
  · intro hclean length data' hret
    rcases get_children_bytes h hsort hv data with ⟨hfits, hget⟩ | ⟨-, -, hget⟩ | ⟨-, -, data'', hget⟩
    · rw [hget] at hret
      cases hret
      have hle := length_of_fits hfits
      have hstring : ∀ (i : Nat) (r : NR_registry) (name : Bytes), data[i]? = some r → (child_names s parent)[i]? = some name →
          (r.copy name).string = some name := by
        intro i r name hr hn
        have hlt : (child_names s parent).length < data.length := by
          refine hfits.resolve_left fun hkids => ?_
          rw [hkids] at hn
          cases hn
        rw [copy_string (hvalid i name hn), if_neg fun hc => hc.2 (hclean hlt i name r hn hr hc.1)]
      have htext := filled_text hle fun i r name hr hn => NR_registry.text_of_string (hstring i r name hr hn)
      -- Sorting the elements sorts the names in them.
      have hperm : ((qsort (filled data (child_names s parent))).map NR_registry.text).Perm (child_names s parent) := by
        have := (hsort.perm (filled data (child_names s parent))).map NR_registry.text
        rwa [htext] at this
      refine ⟨(qsort (filled data (child_names s parent))).map NR_registry.text, ?_, ?_, ?_, ?_⟩
      · rw [← hlength hle, List.take_left, List.map_map]
        refine List.map_congr_left fun x hx => ?_
        obtain ⟨i, r, name, hr, hn, rfl⟩ := mem_filled ((hsort.perm _).mem_iff.1 hx)
        rw [Function.comp_apply, hstring i r name hr hn, NR_registry.text_of_string (hstring i r name hr hn)]
      · exact hperm.nodup_iff.2 (children_nodup h)
      · exact fun n => hperm.mem_iff.trans (mem_children h)
      · rw [List.pairwise_map]
        exact hsort.sorted _
    · rw [hget] at hret
      cases hret
    · rw [hget] at hret
      cases hret

end

/-! ## Runs -/

/-- `a` does not come behind `b` in an array that is sorted. -/
def textLe (a b : NR_registry) : Prop := caseLe a.text b.text

instance (a b : NR_registry) : Decidable (textLe a b) := inferInstanceAs (Decidable (caseLe a.text b.text))

instance : IsTrans NR_registry textLe where
  trans a b c h₁ h₂ := (inferInstance : IsTrans Bytes caseLe).trans a.text b.text c.text h₁ h₂

instance : Std.Total textLe where
  total a b := (inferInstance : Std.Total caseLe).total a.text b.text

/-- One of the functions that sort. -/
def sortTexts (l : List NR_registry) : List NR_registry := l.insertionSort textLe

theorem sortTexts_sorts : Sorts sortTexts where
  perm l := List.perm_insertionSort textLe l
  sorted l := List.pairwise_insertionSort textLe l

/-- An element that holds no zero. -/
def dirty : NR_registry := ⟨List.replicate NR_REG_MAX_NR_REGISTRY_LEN 255, List.length_replicate⟩

/-- Two short names, in an array that held no zero. -/
theorem lists_children_short :
    ∃ s, Reaches (fun _ => 0) Safe [(.set (str "foo.b") .registry, .ok), (.set (str "foo.A") .registry, .ok)] s ∧
      ListsChildren sortTexts s (str "foo") [dirty, dirty, dirty] := by
  have hex : (trace (fun _ => 0) (fun s op => Safe s op) [.set (str "foo.b") .registry,
      .set (str "foo.A") .registry]).any (fun x => x.1 = [.ok, .ok] &&
        (child_names x.2 (str "foo")).all fun n => n.length = 5) = true := by decide +kernel
  obtain ⟨⟨rs, s⟩, htr, hx⟩ := (Option.any_eq_true _ _).1 hex
  simp only [Bool.and_eq_true, decide_eq_true_eq, List.all_eq_true] at hx
  obtain ⟨rfl, hshort⟩ := hx
  have hreach : Reaches (fun _ => 0) Safe _ s := (trace_reaches htr).mono fun _ _ h => of_decide_eq_true h
  refine ⟨s, hreach, (lists_children_iff hreach.rinv sortTexts_sorts (by decide)).2 ?_⟩
  intro _ i name r hn _ hlen
  rw [hshort name (List.mem_of_getElem? hn)] at hlen
  cases hlen

/-- A name of 127 bytes, in an array that held no zero, has no terminator. -/
theorem lists_children_unterminated :
    ∃ s data', Reaches (fun _ => 0) Safe [(.set (List.replicate 127 97) .registry, .ok)] s ∧
      nr_reg_is_valid (List.replicate 127 97) = .ok ∧
      nr_reg_local_get_children sortTexts s [] [dirty, dirty] 2 = some (.ok 1, data') ∧
      data'.head?.map NR_registry.string = some none ∧ ¬ ListsChildren sortTexts s [] [dirty, dirty] := by
  have hex : (trace (fun _ => 0) (fun s op => Safe s op) [.set (List.replicate 127 97) .registry]).any (fun x =>
      x.1 = [.ok] && (nr_reg_local_get_children sortTexts x.2 [] [dirty, dirty] 2).any fun y =>
        (y.1.toOption = some 1) && y.2.head?.map NR_registry.string = some none) = true := by decide +kernel
  obtain ⟨⟨rs, s⟩, htr, hx⟩ := (Option.any_eq_true _ _).1 hex
  simp only [Bool.and_eq_true, decide_eq_true_eq] at hx
  obtain ⟨rfl, hy⟩ := hx
  obtain ⟨⟨result, data'⟩, hget, hy⟩ := (Option.any_eq_true _ _).1 hy
  simp only [Bool.and_eq_true, decide_eq_true_eq] at hy
  obtain ⟨hone, hhead⟩ := hy
  obtain rfl : result = .ok 1 := by
    cases result with
    | error r => cases hone
    | ok n => rw [Option.some.inj hone]
  refine ⟨s, data', (trace_reaches htr).mono fun _ _ h => of_decide_eq_true h, by decide +kernel, hget, hhead, fun hlists => ?_⟩
  obtain ⟨names, hmap, -⟩ := hlists 1 data' hget
  cases data' with
  | nil => cases hhead
  | cons r data' =>
    rw [List.take_succ_cons, List.take_zero, List.map_singleton] at hmap
    rw [List.head?_cons, Option.map_some, Option.some.injEq] at hhead
    rw [hhead] at hmap
    cases names with
    | nil => cases hmap
    | cons n names => cases hmap

end Nrappkit.Registry.Bytewise
