import Nrappkit.Registry.LocalReads
import Nrappkit.Registry.Relay
import Mathlib.Data.List.Sort
/-!
# Children

The functions of `registry_local.c` and `registry.c` that list the children of
a name. They walk the whole table; a walk that only reads calls its action on
every stored name it covers, in the order of the table. The children are then
sorted by `strcasecmp`.
-/
open Lib Nrappkit.Assoc

namespace Nrappkit.Registry

/-! ## The functions -/

/-- The names found so far, and the number there is room for. -/
structure nr_reg_find_children_arg where
  size : Nat
  children : List Bytes

/-- No dot stands behind the prefix and one more byte. -/
def noMoreDots (pfx name : Bytes) : Bool := !(name.drop (pfx.length + 1)).contains dot

/-- The test for an immediate child. -/
def isChild (pfx name : Bytes) : Bool :=
  (pfx.length = 0 || name[pfx.length]? = some dot) && name[pfx.length]?.isSome && noMoreDots pfx name

def nr_reg_local_find_children (pfx : Bytes) (arg : nr_reg_find_children_arg) (s : Reg) (_ : r_assoc_iterator)
    (name : Bytes) (_ : Ptr) : Option (Status × nr_reg_find_children_arg × Reg) :=
  if isChild pfx name then
    if arg.children.length ≥ arg.size then none
    else
      let arg := { arg with children := arg.children ++ [name.take (NR_REG_MAX_NR_REGISTRY_LEN - 1)] }
      some (if arg.children.length ≥ arg.size then .R_INTERRUPTED else .ok, arg, s)
  else some (.ok, arg, s)

/-- Below the root it counts every name. -/
def nr_reg_local_count_children (pfx : Bytes) (count : UInt32) (s : Reg) (_ : r_assoc_iterator) (name : Bytes)
    (_ : Ptr) : Option (Status × UInt32 × Reg) :=
  if name[pfx.length]? = some dot then some (.ok, if noMoreDots pfx name then count + 1 else count, s)
  else if name ≠ [] then some (.ok, if pfx.length = 0 then count + 1 else count, s)
  else some (.ok, count, s)

def nr_reg_local_get_child_count (s : Reg) (parent : Bytes) : Option (Except Status UInt32) :=
  match nr_reg_fetch_node s parent .REGISTRY with
  | none => none
  | some (.error r) => some (.error r)
  | some (.ok _) => (nr_reg_local_iter (nr_reg_local_count_children parent) parent 0 s).map fun
    | (.ok, count, _) => .ok count
    | (r, _, _) => .error r

/-- `strcasecmp`, as an order. -/
def strcasecmp (a b : Bytes) : Ordering := compare (a.map tolower) (b.map tolower)

/-- A sort by `strcasecmp`; where names compare equal `qsort` may choose
another order. -/
def qsort (l : List Bytes) : List Bytes := l.insertionSort fun a b => (strcasecmp a b).isLE

def nr_reg_local_get_children (s : Reg) (parent : Bytes) (size : Nat) : Option (Except Status (List Bytes)) :=
  if nr_reg_is_valid parent ≠ .ok then some (.error (nr_reg_is_valid parent))
  else (nr_reg_local_iter (nr_reg_local_find_children parent) parent { size, children := [] } s).map fun
    | (.ok, arg, _) => .ok (qsort arg.children)
    | (.R_INTERRUPTED, _, _) => .error .R_BAD_ARGS
    | (r, _, _) => .error r

def NR_reg_get_child_registry (s : Reg) (parent : Bytes) (i : Nat) : Option (Except Status Bytes) :=
  match nr_reg_local_get_child_count s parent with
  | none => none
  | some (.error r) => some (.error r)
  | some (.ok count) =>
    if i ≥ count.toNat then some (.error .R_NOT_FOUND)
    else (nr_reg_local_get_children s parent (count.toNat + 1)).map fun
      | .error r => .error r
      | .ok children => match children[i]? with
        | none => .error .R_NOT_FOUND
        | some child => .ok child

/-! ## Walks that only read -/

section
variable {α : Type}

/-- Call an action on names until one fails. -/
def walkNames (f : α → Bytes → Option (Status × α)) : α → List Bytes → Option (Status × α)
  | a, [] => some (.ok, a)
  | a, name :: names =>
    match f a name with
    | none => none
    | some (.ok, a) => walkNames f a names
    | some r => some r

/-- An action that changes nothing. -/
def reads (f : α → Bytes → Option (Status × α)) (a : α) (s : Reg) (_ : r_assoc_iterator) (name : Bytes) (_ : Ptr) :
    Option (Status × α × Reg) :=
  (f a name).map fun r => (r.1, r.2, s)

/-- The names of some elements that a prefix covers. -/
def namesOf (pfx : Bytes) (t : r_assoc Ptr) (l : List Ptr) : List Bytes :=
  ((keysOf t l).map List.dropLast).filter (covers pfx)

theorem reads_loop {s : Reg} (h : RInv s) (f : α → Bytes → Option (Status × α)) (pfx : Bytes) (rest : List Ptr) {n : Nat}
    {cs : Nat → List Ptr} {pre : List Ptr} {iter : r_assoc_iterator} (a : α) (hr : Rep s.nr_registry cs)
    (ho : order s.nr_registry cs = pre ++ rest) (hat : At cs iter rest) (hn : rest.length ≤ n) :
    iter_loop (reads f) pfx n a s iter = (walkNames f a (namesOf pfx s.nr_registry rest)).map fun r => (r.1, r.2, s) := by
  induction rest generalizing n pre iter a with
  | nil =>
    unfold iter_loop
    rw [hat.1]
    rfl
  | cons p rest ih =>
    obtain ⟨e, iter', name, hel⟩ := h.walk_at hr ho hat
    obtain ⟨n, rfl⟩ : ∃ m, n = m + 1 := ⟨n - 1, by simp at hn; omega⟩
    have ho₂ : order s.nr_registry cs = (pre ++ [p]) ++ rest := by simpa using ho
    have hdrop : (nameKey name).dropLast = name := List.dropLast_concat
    have hih := fun a => ih a ho₂ hel.next (by simpa using hn : rest.length ≤ n)
    rw [hel.iter_loop, namesOf, hel.keys, List.map_cons, hdrop]
    by_cases hc : covers pfx name = true
    · rw [if_pos hc, List.filter_cons_of_pos hc, walkNames, reads]
      cases hf : f a name with
      | none => rfl
      | some r =>
        obtain ⟨r, a'⟩ := r
        cases r with
        | ok => exact hih a'
        | _ => rfl
    · rw [if_neg hc, List.filter_cons_of_neg hc]
      exact hih a

end

/-- The stored names, in the order of the table. -/
def stored_names (s : Reg) : List Bytes :=
  match nr_reg_local_iter (reads fun names name => some (.ok, names ++ [name])) [] [] s with
  | some (_, names, _) => names
  | none => []

theorem walk_collect (l names : List Bytes) :
    walkNames (fun names name => some (.ok, names ++ [name])) l names = some (.ok, l ++ names) := by
  induction names generalizing l with
  | nil => simp [walkNames]
  | cons name names ih =>
    rw [walkNames]
    dsimp only
    rw [ih, List.append_assoc, List.singleton_append]

/-- A walk that only reads calls its action on the stored names that the prefix
covers, each once, in the order of the table. -/
theorem iter_reads {s : Reg} (h : RInv s) :
    (stored_names s).Nodup ∧ (∀ n, n ∈ stored_names s ↔ s.map n ≠ none) ∧
      ∀ {α : Type} (f : α → Bytes → Option (Status × α)) (pfx : Bytes) (a : α), nr_reg_local_iter (reads f) pfx a s =
        (walkNames f a ((stored_names s).filter (covers pfx))).map fun r => (r.1, r.2, s) := by
  obtain ⟨cs, hr⟩ := h.rep
  obtain ⟨hnodup, hmem⟩ := h.table_names hr
  have hwalk : ∀ {α : Type} (f : α → Bytes → Option (Status × α)) (pfx : Bytes) (a : α), nr_reg_local_iter (reads f) pfx a s =
      (walkNames f a (namesOf pfx s.nr_registry (order s.nr_registry cs))).map fun r => (r.1, r.2, s) :=
    fun f pfx a => reads_loop h f pfx _ a hr (List.nil_append _).symm hr.init_iter hr.order_length_le
  have hall : stored_names s = (keysOf s.nr_registry (order s.nr_registry cs)).map List.dropLast := by
    unfold stored_names
    rw [hwalk, walk_collect, namesOf, List.filter_eq_self.2 fun n _ => covers_iff.2 (.inl rfl)]
    rfl
  rw [hall]
  exact ⟨hnodup, fun n => by rw [hmem, ne_eq, ne_eq, map_none], hwalk⟩

/-! ## What is counted and found -/

/-- The name is below `p` by one step; below the root that is a name without a
dot. -/
def Child (p n : Bytes) : Prop := if p = [] then n ≠ [] ∧ beforeLastDot n = none else beforeLastDot n = some p

/-- The names that `nr_reg_local_count_children` counts. -/
def counted (pfx name : Bytes) : Bool :=
  if name[pfx.length]? = some dot then noMoreDots pfx name else name ≠ [] && pfx.length = 0

section
variable {s : Reg} {pfx name : Bytes}

theorem isChild_counted (h : isChild pfx name = true) : counted pfx name = true := by
  simp only [isChild, Bool.and_eq_true, Bool.or_eq_true, decide_eq_true_eq] at h
  obtain ⟨⟨hlen, hsome⟩, hdots⟩ := h
  unfold counted
  split
  · exact hdots
  · rename_i hno
    have h0 : pfx.length = 0 := hlen.resolve_right hno
    have hne : name ≠ [] := by
      rintro rfl
      simp at hsome
    simp [hne, h0]

theorem counted_isChild (hp : pfx ≠ []) (h : counted pfx name = true) : isChild pfx name = true := by
  have hlen : pfx.length ≠ 0 := by simpa using hp
  unfold counted at h
  split at h
  · rename_i hdot
    simp [isChild, hdot, h]
  · simp [hlen] at h

/-- The test finds the children among the valid names that the prefix covers. -/
theorem covers_isChild (hv : nr_reg_is_valid name = .ok) :
    covers pfx name = true ∧ isChild pfx name = true ↔ Child pfx name := by
  have hhead : name.head? ≠ some dot := (is_valid_iff.1 hv).2.1
  unfold Child
  split
  · rename_i hp
    subst hp
    rw [beforeLastDot_none]
    cases name with
    | nil => simp [isChild]
    | cons c name =>
      have hc : c ≠ dot := by simpa using hhead
      simp [covers, isChild, noMoreDots, Ne.symm hc]
  · rename_i hp
    have hlen : pfx.length ≠ 0 := by simpa using hp
    rw [beforeLastDot_some]
    constructor
    · rintro ⟨hc, hi⟩
      simp only [isChild, Bool.and_eq_true, Bool.or_eq_true, decide_eq_true_eq, hlen, false_or] at hi
      rcases covers_iff.1 hc with rfl | rfl | ⟨r, rfl⟩
      · exact absurd rfl hp
      · simp at hi
      · refine ⟨r, rfl, ?_⟩
        simpa [noMoreDots] using hi.2
    · rintro ⟨r, rfl, hr⟩
      refine ⟨covers_iff.2 (.inr (.inr ⟨r, rfl⟩)), ?_⟩
      simp [isChild, noMoreDots, hr]

theorem count_reads (pfx : Bytes) : nr_reg_local_count_children pfx =
    reads fun count name => some (.ok, if counted pfx name then count + 1 else count) := by
  funext count s iter name p
  unfold nr_reg_local_count_children reads counted
  split
  · rename_i hdot
    simp [hdot]
  · rename_i hdot
    split
    · rename_i hne
      simp [hdot, hne]
    · rename_i hnil
      simp [hdot, hnil]

theorem walk_count (pfx : Bytes) (count : UInt32) (names : List Bytes) :
    walkNames (fun count name => some (.ok, if counted pfx name then count + 1 else count)) count names =
      some (.ok, count + UInt32.ofNat (names.filter (counted pfx)).length) := by
  induction names generalizing count with
  | nil => simp [walkNames]
  | cons name names ih =>
    rw [walkNames]
    dsimp only
    rw [ih]
    by_cases hc : counted pfx name = true
    · rw [if_pos hc, List.filter_cons_of_pos hc, List.length_cons, UInt32.ofNat_add, UInt32.add_assoc,
        UInt32.add_comm (UInt32.ofNat _)]
      rfl
    · rw [if_neg hc, List.filter_cons_of_neg hc]

/-- What `nr_reg_local_find_children` does with a name. -/
def findOne (pfx : Bytes) (arg : nr_reg_find_children_arg) (name : Bytes) : Option (Status × nr_reg_find_children_arg) :=
  if isChild pfx name then
    if arg.children.length ≥ arg.size then none
    else some (if arg.children.length + 1 ≥ arg.size then .R_INTERRUPTED else .ok,
      { arg with children := arg.children ++ [name.take (NR_REG_MAX_NR_REGISTRY_LEN - 1)] })
  else some (.ok, arg)

theorem find_reads (pfx : Bytes) : nr_reg_local_find_children pfx = reads (findOne pfx) := by
  funext arg s iter name p
  unfold nr_reg_local_find_children reads findOne
  split
  · split
    · rfl
    · simp
  · rfl

/-- The walk stops when the array is full, at the last child it has room for. -/
theorem walk_find (pfx : Bytes) (names : List Bytes) {size : Nat} {children : List Bytes} (hlt : children.length < size)
    (hshort : ∀ n ∈ names, n.length < NR_REG_MAX_NR_REGISTRY_LEN) :
    ((names.filter (isChild pfx)).length + children.length < size ∧
      walkNames (findOne pfx) { size, children } names =
        some (.ok, { size, children := children ++ names.filter (isChild pfx) })) ∨
    ((names.filter (isChild pfx)).length + children.length ≥ size ∧
      ∃ arg, walkNames (findOne pfx) { size, children } names = some (.R_INTERRUPTED, arg)) := by
  induction names generalizing children with
  | nil => exact .inl ⟨by simpa using hlt, by simp [walkNames]⟩
  | cons name names ih =>
    have hname := hshort name List.mem_cons_self
    have hrest : ∀ n ∈ names, n.length < NR_REG_MAX_NR_REGISTRY_LEN := fun n hn => hshort n (List.mem_cons_of_mem _ hn)
    rw [walkNames, findOne]
    by_cases hc : isChild pfx name = true
    · have htake : name.take (NR_REG_MAX_NR_REGISTRY_LEN - 1) = name := List.take_of_length_le (Nat.le_sub_one_of_lt hname)
      dsimp only
      rw [if_pos hc, List.filter_cons_of_pos hc, List.length_cons, if_neg (by omega), htake]
      by_cases hfull : children.length + 1 ≥ size
      · rw [if_pos hfull]
        exact .inr ⟨by omega, _, rfl⟩
      · rw [if_neg hfull]
        have hlen : (children ++ [name]).length = children.length + 1 := List.length_append
        have hroom : (children ++ [name]).length < size := by omega
        rcases ih hroom hrest with ⟨hle, hw⟩ | ⟨hle, hw⟩
        · refine .inl ⟨by omega, ?_⟩
          dsimp only
          rw [hw, List.append_assoc, List.singleton_append]
        · exact .inr ⟨by omega, hw⟩
    · rw [if_neg hc, List.filter_cons_of_neg hc]
      exact ih hlt hrest

end

/-! ## What is counted and listed of a table -/

/-- The stored names that are children of `parent`, in the order of the table. -/
def child_names (s : Reg) (parent : Bytes) : List Bytes := ((stored_names s).filter (covers parent)).filter (isChild parent)

/-- The stored names that are counted for `parent`, in the order of the table. -/
def counted_names (s : Reg) (parent : Bytes) : List Bytes :=
  ((stored_names s).filter (covers parent)).filter (counted parent)

section
variable {s : Reg} {parent : Bytes}

theorem valid_of_stored (h : RInv s) {n : Bytes} (hn : s.map n ≠ none) : nr_reg_is_valid n = .ok := by
  obtain ⟨p, hp⟩ := Option.ne_none_iff_exists'.1 (mt map_none.2 hn)
  exact (h.ptr_some hp).2.2

theorem children_nodup (h : RInv s) : (child_names s parent).Nodup := ((iter_reads h).1.filter _).filter _

theorem mem_children (h : RInv s) {n : Bytes} : n ∈ child_names s parent ↔ Child parent n ∧ s.map n ≠ none := by
  rw [child_names, List.mem_filter, List.mem_filter, (iter_reads h).2.1]
  constructor
  · rintro ⟨⟨hn, hcov⟩, hc⟩
    exact ⟨(covers_isChild (valid_of_stored h hn)).1 ⟨hcov, hc⟩, hn⟩
  · rintro ⟨hchild, hn⟩
    obtain ⟨hcov, hc⟩ := (covers_isChild (valid_of_stored h hn)).2 hchild
    exact ⟨⟨hn, hcov⟩, hc⟩

theorem counted_names_nodup (h : RInv s) : (counted_names s parent).Nodup := ((iter_reads h).1.filter _).filter _

/-- Below a name other than the root the two tests agree. -/
theorem counted_names_eq (hp : parent ≠ []) : counted_names s parent = child_names s parent := by
  refine List.filter_congr fun n _ => ?_
  rw [Bool.eq_iff_iff]
  exact ⟨counted_isChild hp, isChild_counted⟩

theorem count_children_eq (h : RInv s) (pfx : Bytes) : nr_reg_local_iter (nr_reg_local_count_children pfx) pfx 0 s =
    some (.ok, UInt32.ofNat (counted_names s pfx).length, s) := by
  rw [count_reads, (iter_reads h).2.2, walk_count]
  simp [counted_names]

theorem child_count_eq (h : RInv s) (hreg : s.map parent = some (some .registry)) :
    nr_reg_local_get_child_count s parent = some (.ok (UInt32.ofNat (counted_names s parent).length)) := by
  obtain ⟨p, node, hp, hn, hval, -⟩ := h.node_of_map hreg
  have htype : node.type = .REGISTRY := by
    rw [← Node.value_type, hval]
    rfl
  unfold nr_reg_local_get_child_count
  rw [fetch_stored h hp hn, if_neg (by simp [htype])]
  dsimp only
  rw [count_children_eq h]
  rfl

/-- Children are counted below a registry only. -/
theorem child_count_registry (h : RInv s) {count : UInt32} (hcount : nr_reg_local_get_child_count s parent = some (.ok count)) :
    s.map parent = some (some .registry) := by
  unfold nr_reg_local_get_child_count at hcount
  by_cases hv : nr_reg_is_valid parent = .ok
  · rw [h.fetch_node hv] at hcount
    cases hp : s.ptr parent with
    | none => simp [hp] at hcount
    | some p =>
      cases hn : s.nodes p with
      | none => simp [hp, hn] at hcount
      | some node =>
        rw [Reg.map, hp, Option.map_some, hn, Option.map_some]
        cases node with
        | registry => rfl
        | scalar v => cases v <;> simp [hp, hn, Node.type, Scalar.type] at hcount
        | array string length data => cases string <;> simp [hp, hn, Node.type, arrayType] at hcount
  · rw [fetch_node_invalid hv] at hcount
    cases hcount

theorem children_short (h : RInv s) {n : Bytes} (hn : n ∈ (stored_names s).filter (covers parent)) :
    n.length < NR_REG_MAX_NR_REGISTRY_LEN :=
  (is_valid_iff.1 (valid_of_stored h (((iter_reads h).2.1 n).1 (List.mem_filter.1 hn).1))).1

/-- What is found with an array of every size but 0. -/
theorem get_children_eq (h : RInv s) (hv : nr_reg_is_valid parent = .ok) {size : Nat} (hsize : 0 < size) :
    nr_reg_local_get_children s parent size =
      some (if (child_names s parent).length < size then .ok (qsort (child_names s parent)) else .error .R_BAD_ARGS) := by
  unfold nr_reg_local_get_children
  rw [if_neg (by simp [hv]), find_reads, (iter_reads h).2.2]
  have hempty : ([] : List Bytes).length < size := hsize
  rcases walk_find parent _ hempty fun n hn => children_short h hn with ⟨hlt, hw⟩ | ⟨hge, arg, hw⟩
  · have hfits : (child_names s parent).length < size := hlt
    rw [hw, if_pos hfits]
    rfl
  · have hfull : (child_names s parent).length ≥ size := hge
    rw [hw, if_neg (Nat.not_lt.2 hfull)]
    rfl

end

/-! ## Names below one another -/

theorem covers_self (name : Bytes) : covers name name = true := covers_iff.2 (.inr (.inl rfl))

theorem covers_trans {a b c : Bytes} (h₁ : covers a b = true) (h₂ : covers b c = true) : covers a c = true := by
  rcases covers_iff.1 h₂ with rfl | rfl | hanc
  · rcases covers_iff.1 h₁ with rfl | rfl | ⟨r, hr⟩
    · exact covers_iff.2 (.inl rfl)
    · exact covers_iff.2 (.inl rfl)
    · simp at hr
  · exact h₁
  · exact covers_below h₁ hanc

theorem ancestor_total {a b n : Bytes} (ha : Ancestor a n) (hb : Ancestor b n) : a = b ∨ Ancestor a b ∨ Ancestor b a := by
  obtain ⟨r, rfl⟩ := ha
  obtain ⟨r', heq⟩ := hb
  rcases List.append_eq_append_iff.1 heq with ⟨m, rfl, hm⟩ | ⟨m, rfl, hm⟩
  · cases m with
    | nil => exact .inl (List.append_nil _).symm
    | cons c m =>
      obtain ⟨rfl, -⟩ := List.cons.inj hm
      exact .inr (.inl ⟨m, rfl⟩)
  · cases m with
    | nil => exact .inl (List.append_nil _)
    | cons c m =>
      obtain ⟨rfl, -⟩ := List.cons.inj hm
      exact .inr (.inr ⟨m, rfl⟩)

theorem Child.ne_nil {p k : Bytes} (h : Child p k) : k ≠ [] := by
  unfold Child at h
  split at h
  · exact h.1
  · rintro rfl
    cases h

theorem Child.length {p k : Bytes} (h : Child p k) : p.length < k.length := by
  have hne := h.ne_nil
  unfold Child at h
  split at h
  · rename_i hp
    rw [hp]
    exact List.length_pos_iff.2 hne
  · exact beforeLastDot_length h

/-- A name at or below a child is below the parent. -/
theorem Child.covers {p k n : Bytes} (h : Child p k) (hc : covers k n = true) : covers p n = true ∧ n ≠ p := by
  have hpk : Registry.covers p k = true := by
    unfold Child at h
    split at h
    · rename_i hp
      exact covers_iff.2 (.inl hp)
    · exact covers_iff.2 (.inr (.inr ((ancestor_iff h).2 (.inl rfl))))
  have hle : k.length ≤ n.length := by
    rcases (covers_iff.1 hc).resolve_left h.ne_nil with rfl | hanc
    · exact Nat.le_refl _
    · exact Nat.le_of_lt hanc.length
  refine ⟨covers_trans hpk hc, ?_⟩
  rintro rfl
  exact absurd h.length (Nat.not_lt.2 hle)

/-- A child is no ancestor of another. -/
theorem Child.not_ancestor {p k k' : Bytes} (h : Child p k) (h' : Child p k') : ¬ Ancestor k' k := by
  unfold Child at h h'
  intro hanc
  split at h
  · exact Registry.not_ancestor h.2 hanc
  · rename_i hp
    rw [if_neg hp] at h'
    have hlt := beforeLastDot_length h'
    rcases (ancestor_iff h).1 hanc with rfl | hanc
    · exact Nat.lt_irrefl _ hlt
    · exact Nat.lt_asymm hlt hanc.length

/-- A name is at or below one child at most. -/
theorem Child.unique {p k k' n : Bytes} (h : Child p k) (h' : Child p k') (hc : Registry.covers k n = true)
    (hc' : Registry.covers k' n = true) : k = k' := by
  rcases (covers_iff.1 hc).resolve_left h.ne_nil with rfl | hanc
  · rcases (covers_iff.1 hc').resolve_left h'.ne_nil with rfl | hanc'
    · rfl
    · exact absurd hanc' (h.not_ancestor h')
  · rcases (covers_iff.1 hc').resolve_left h'.ne_nil with rfl | hanc'
    · exact absurd hanc (h'.not_ancestor h)
    · rcases ancestor_total hanc hanc' with heq | hanc | hanc
      · exact heq
      · exact absurd hanc (h'.not_ancestor h)
      · exact absurd hanc (h.not_ancestor h')

/-- `a` does not come behind `b`. -/
def caseLe (a b : Bytes) : Prop := (strcasecmp a b).isLE = true

instance (a b : Bytes) : Decidable (caseLe a b) := inferInstanceAs (Decidable (_ = true))

instance : IsTrans Bytes caseLe where
  trans a b c h₁ h₂ := by
    unfold caseLe strcasecmp at h₁ h₂ ⊢
    exact Std.TransOrd.isLE_trans h₁ h₂

instance : Std.Total caseLe where
  total a b := by
    have hswap : strcasecmp b a = (strcasecmp a b).swap := Std.OrientedOrd.eq_swap
    unfold caseLe
    rw [hswap]
    cases strcasecmp a b <;> decide

theorem qsort_perm (l : List Bytes) : (qsort l).Perm l := List.perm_insertionSort caseLe l

/-- A sorted list of names no two of which compare equal is what `qsort` makes
of every order of it. -/
theorem qsort_unique {l l' : List Bytes} (hp : l'.Perm l) (hs : l'.Pairwise caseLe)
    (hanti : ∀ a ∈ l, ∀ b ∈ l, caseLe a b → caseLe b a → a = b) : qsort l = l' := by
  have hsorted : (qsort l).Pairwise caseLe := List.pairwise_insertionSort caseLe l
  refine List.Perm.eq_of_pairwise (fun a b ha hb => ?_) hsorted hs ((qsort_perm l).trans hp.symm)
  exact hanti a ((qsort_perm l).mem_iff.1 ha) b (hp.mem_iff.1 hb)

theorem compare_append (p a b : Bytes) : compare (p ++ a) (p ++ b) = compare a b := by
  induction p with
  | nil => rfl
  | cons c p ih =>
    have hself : compare c c = .eq := Std.ReflOrd.compare_self
    rw [List.cons_append, List.cons_append, List.compare_cons_cons, hself, ih]
    rfl

/-- A common prefix makes no difference. -/
theorem strcasecmp_append (p a b : Bytes) : strcasecmp (p ++ a) (p ++ b) = strcasecmp a b := by
  rw [strcasecmp, List.map_append, List.map_append, compare_append]
  rfl

end Nrappkit.Registry
