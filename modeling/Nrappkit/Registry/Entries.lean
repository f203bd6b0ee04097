import Nrappkit.Registry.Children
import Nrappkit.Lib.Numeral
/-!
# Lists in the registry

`nr_c2ru_set_children` and `nr_c2ru_get_children` of `c2ru.c`. The functions
that store and read one entry are parameters. Entries are stored under their
positions in decimal and read in the order of the text, in which `10` comes
before `2`.

The reader counts with `NR_reg_get_child_count`, which passes the address of an
`unsigned int` on as a `size_t *`: with 64-bit pointers the four bytes behind
the counter are cleared too, and what they are depends on the compiler.
-/
open Lib Nrappkit.Assoc

namespace Nrappkit.Registry

/-! ## The functions -/

/-- A byte of a child, or an underscore in its place. -/
def childByte (c : UInt8) : UInt8 := if isspace c || c = dot || c = 47 || !isprint c then 95 else c

def NR_reg_make_registry (parent child : Bytes) : Except Status Bytes :=
  if nr_reg_is_valid parent ≠ .ok then .error (nr_reg_is_valid parent)
  else if child.head? = some dot then .error .R_BAD_ARGS
  else if parent.length + child.length + 2 > NR_REG_MAX_NR_REGISTRY_LEN then .error .R_BAD_ARGS
  else if child = [] ∨ child.getLast? = some dot then .error .R_BAD_ARGS
  else .ok ((if parent = [] then [] else parent ++ [dot]) ++ child.map childByte)

def nr_c2ru_make_registry (parent child : Bytes) : Except Status Bytes := NR_reg_make_registry parent child

section
variable {α : Type}

/-- The loop of `nr_c2ru_set_children`, from position `i` on; `i` is an `int`. -/
def set_entries (set : Reg → Bytes → α → Option (Status × Reg)) (label : Option (Bytes → α → Except Status Bytes))
    (registry : Bytes) : Reg → Nat → List α → Option (Status × Reg)
  | s, _, [] => some (.ok, s)
  | s, i, entry :: list =>
    let buffer := match label.map fun label => label registry entry with
      | some (.ok buffer) => buffer
      | _ => snprintf NR_REG_MAX_NR_REGISTRY_LEN (numeral 10 i)
    match nr_c2ru_make_registry registry buffer with
    | .error r => some (r, s)
    | .ok name =>
      match set s name entry with
      | none => none
      | some (.ok, s) => if i + 1 < 2 ^ 31 then set_entries set label registry s (i + 1) list else none
      | some (r, s) => some (r, s)

def nr_c2ru_set_children (beh : nr_reg_cb_info → UInt8) (set : Reg → Bytes → α → Option (Status × Reg))
    (label : Option (Bytes → α → Except Status Bytes)) (s : Reg) (parent child : Bytes) (list : List α) :
    Option (Status × Reg) :=
  match nr_c2ru_make_registry parent child with
  | .error r => some (r, s)
  | .ok registry =>
    match nr_reg_local_del beh s registry with
    | none => none
    | some (_, s) => set_entries set label registry s 0 list

/-- The loop of `nr_c2ru_get_children`, for `n` children from `i` on. -/
def get_entries (get : Reg → Bytes → Option (Except Status α)) (s : Reg) (registry : Bytes) :
    Nat → Nat → List α → Option (Status × List α)
  | 0, _, tailq => some (.ok, tailq)
  | n + 1, i, tailq =>
    match NR_reg_get_child_registry s registry i with
    | none => none
    | some (.error .R_NOT_FOUND) => get_entries get s registry n (i + 1) tailq
    | some (.error r) => some (r, tailq)
    | some (.ok name) =>
      match get s name with
      | none => none
      | some (.error .R_NOT_FOUND) => get_entries get s registry n (i + 1) tailq
      | some (.error r) => some (r, tailq)
      | some (.ok entry) => get_entries get s registry n (i + 1) (tailq ++ [entry])

/-- What lies in the four bytes behind `count`, a local variable of
`nr_c2ru_get_children`. -/
inductive BehindCount where
  | unused
  /-- The first bytes of the local variable `registry`. -/
  | registry
  /-- Something else that is still used, such as a pointer. -/
  | other
  deriving DecidableEq

/-- `NR_reg_get_child_count` for that `count`. The callee clears eight bytes
before it counts, so that the name may have become the root. -/
def NR_reg_get_child_count (behind : BehindCount) (s : Reg) (registry : Bytes) : Option (Except Status UInt32 × Bytes) :=
  match nr_reg_fetch_node s registry .REGISTRY with
  | none => none
  | some (.error r) => some (.error r, registry)
  | some (.ok _) =>
    if behind = .other then none
    else
      let registry := if behind = .registry then [] else registry
      (nr_reg_local_iter (nr_reg_local_count_children registry) registry 0 s).map fun
        | (.ok, count, _) => (.ok count, registry)
        | (r, _, _) => (.error r, registry)

def nr_c2ru_get_children (behind : BehindCount) (get : Reg → Bytes → Option (Except Status α)) (s : Reg)
    (parent child : Bytes) : Option (Status × List α) :=
  match nr_c2ru_make_registry parent child with
  | .error r => some (r, [])
  | .ok registry =>
    match NR_reg_get_child_count behind s registry with
    | none => none
    | some (.error .R_NOT_FOUND, _) => some (.ok, [])
    | some (.error r, _) => some (r, [])
    | some (.ok count, registry) => get_entries get s registry count.toNat 0 []

/-- What a caller's two functions are to do with the node for one entry: where
nothing was stored at the name or below it, a set that returns 0 stores a node
there and its parent, changes nothing beside them, and leaves what the get
function turns back into the entry. That function looks at the node and what
is below it only. -/
structure Inverse (set : Reg → Bytes → α → Option (Status × Reg)) (get : Reg → Bytes → Option (Except Status α)) :
    Prop where
  inv : ∀ {s s' name entry}, RInv s → set s name entry = some (.ok, s') → RInv s'
  stores : ∀ {s s' name entry}, RInv s → (∀ n, covers name n = true → s.map n = none) →
    set s name entry = some (.ok, s') → s'.map name ≠ none ∧ get s' name = some (.ok entry)
  parent : ∀ {s s' name entry p}, RInv s → (∀ n, covers name n = true → s.map n = none) →
    set s name entry = some (.ok, s') → beforeLastDot name = some p → s'.map p = (s.map p).or (some (some .registry))
  frame : ∀ {s s' name entry n}, RInv s → set s name entry = some (.ok, s') → covers name n = false →
    ¬ Ancestor n name → s'.map n = s.map n
  local_get : ∀ {s s' name}, RInv s → RInv s' → (∀ n, covers name n = true → s'.map n = s.map n) →
    get s' name = get s name

end

/-! ## Names of the entries -/

/-- The name under which the entry at a position is stored. -/
def entryName (registry : Bytes) (i : Nat) : Bytes := registry ++ dot :: numeral 10 i

section
variable {registry n : Bytes} {i j : Nat}

theorem digit_facts {c : UInt8} (h : c ∈ numeral 10 i) : c ≠ dot ∧ childByte c = c ∧ tolower c = c := by
  obtain ⟨d, hd, rfl⟩ := numeral_mem (by decide) h
  have hall : ∀ d : Fin 10, digitChar d ≠ dot ∧ childByte (digitChar d) = digitChar d ∧
      tolower (digitChar d) = digitChar d := by decide
  exact hall ⟨d, hd⟩

theorem dot_notMem_numeral : dot ∉ numeral 10 i := fun h => (digit_facts h).1 rfl

theorem entryName_parent : beforeLastDot (entryName registry i) = some registry :=
  beforeLastDot_some.2 ⟨numeral 10 i, rfl, dot_notMem_numeral⟩

/-- The number of the entry that a name is at or below. -/
theorem covers_entry (hn : covers (entryName registry i) n = true) :
    ∃ rest, n = registry ++ dot :: (numeral 10 i ++ rest) ∧ (rest = [] ∨ rest.head? = some dot) := by
  rcases covers_iff.1 hn with h | rfl | ⟨r, rfl⟩
  · exact absurd h (by simp [entryName])
  · exact ⟨[], by simp [entryName], .inl rfl⟩
  · exact ⟨dot :: r, by simp [entryName], .inr rfl⟩

theorem covers_entry_unique (hi : covers (entryName registry i) n = true) (hj : covers (entryName registry j) n = true) :
    i = j := by
  obtain ⟨r, rfl, hr⟩ := covers_entry hi
  obtain ⟨r', heq, hr'⟩ := covers_entry hj
  have hstop : ∀ {k : Nat} {rest : Bytes}, rest = [] ∨ rest.head? = some dot →
      (numeral 10 k ++ rest).takeWhile (· ≠ dot) = numeral 10 k := by
    intro k rest hrest
    rw [List.takeWhile_append_of_pos fun c hc => by simpa using (digit_facts hc).1]
    rcases hrest with rfl | hrest
    · simp
    · cases rest with
      | nil => cases hrest
      | cons c rest =>
        obtain rfl : c = dot := by simpa using hrest
        simp
  have htail := (List.cons.inj (List.append_cancel_left heq)).2
  have hnum := congrArg (List.takeWhile (· ≠ dot)) htail
  rw [hstop hr, hstop hr'] at hnum
  exact numeral_inj (by decide) (by decide) hnum

theorem covers_entryName_ne (h : i ≠ j) : covers (entryName registry i) (entryName registry j) = false := by
  rw [Bool.eq_false_iff]
  exact fun hc => h (covers_entry_unique hc (covers_self _))

/-- What `NR_reg_make_registry` checks and returns. -/
theorem make_registry_inv {parent child : Bytes} (h : nr_c2ru_make_registry parent child = .ok registry) :
    nr_reg_is_valid parent = .ok ∧ parent.length + child.length + 2 ≤ NR_REG_MAX_NR_REGISTRY_LEN ∧ child ≠ [] ∧
      registry = (if parent = [] then [] else parent ++ [dot]) ++ child.map childByte := by
  unfold nr_c2ru_make_registry NR_reg_make_registry at h
  by_cases hv : nr_reg_is_valid parent = .ok
  · rw [if_neg (not_not.2 hv)] at h
    split at h
    · cases h
    split at h
    · cases h
    split at h
    · cases h
    rename_i hlen hend
    rw [not_or] at hend
    exact ⟨hv, Nat.not_lt.1 hlen, hend.1, (Except.ok.inj h).symm⟩
  · rw [if_pos hv] at h
    cases h

theorem make_registry_error {parent child : Bytes} {r : Status} (h : nr_c2ru_make_registry parent child = .error r) :
    r ≠ .ok := by
  unfold nr_c2ru_make_registry NR_reg_make_registry at h
  repeat' split at h
  all_goals cases h
  · assumption
  all_goals simp

/-- The name the loop computes, where it fits. -/
theorem make_entryName (hne : registry ≠ []) {name : Bytes}
    (h : nr_c2ru_make_registry registry (snprintf NR_REG_MAX_NR_REGISTRY_LEN (numeral 10 i)) = .ok name) :
    name = entryName registry i := by
  obtain ⟨-, hlen, -, rfl⟩ := make_registry_inv h
  -- the name fits, so nothing was cut off
  have hwhole : snprintf NR_REG_MAX_NR_REGISTRY_LEN (numeral 10 i) = numeral 10 i := by
    rw [snprintf, List.length_take, NR_REG_MAX_NR_REGISTRY_LEN] at hlen
    exact List.take_of_length_le (by rw [NR_REG_MAX_NR_REGISTRY_LEN]; omega)
  have hbytes : (numeral 10 i).map childByte = numeral 10 i := by
    nth_rewrite 2 [← List.map_id (numeral 10 i)]
    exact List.map_congr_left fun c hc => (digit_facts hc).2.1
  rw [hwhole, hbytes, if_neg hne, entryName, List.append_assoc, List.singleton_append]

theorem childByte_legal (c : UInt8) : legalByte (childByte c) = true ∧ childByte c ≠ dot := by
  unfold childByte
  split
  · decide
  · rename_i h
    simp only [Bool.or_eq_true, decide_eq_true_eq, Bool.not_eq_true', not_or, Bool.not_eq_true, Bool.not_eq_false] at h
    obtain ⟨⟨⟨hs, hd⟩, h47⟩, hp⟩ := h
    exact ⟨by simp [legalByte, hs, h47, hp], hd⟩

/-- A name that was put together is a valid one, and not the root. -/
theorem make_registry_valid {parent child : Bytes} (h : nr_c2ru_make_registry parent child = .ok registry) :
    registry ≠ [] ∧ nr_reg_is_valid registry = .ok := by
  obtain ⟨hv, hlen, hne, rfl⟩ := make_registry_inv h
  obtain ⟨-, hhead, -, hlegal⟩ := is_valid_iff.1 hv
  obtain ⟨c, child, rfl⟩ := List.exists_cons_of_ne_nil hne
  have hchild : ∀ b ∈ (c :: child).map childByte, legalByte b = true ∧ b ≠ dot := by
    intro b hb
    obtain ⟨a, -, rfl⟩ := List.mem_map.1 hb
    exact childByte_legal a
  refine ⟨by simp, is_valid_iff.2 ⟨?_, ?_, ?_, fun b hb => ?_⟩⟩
  · rw [List.length_append, List.length_map]
    split
    · rw [List.length_nil]
      omega
    · rw [List.length_append, List.length_singleton]
      omega
  · split
    · exact fun hd => (childByte_legal c).2 (Option.some.inj hd)
    · rename_i hp
      rw [List.append_assoc, List.head?_append_of_ne_nil _ hp]
      exact hhead
  · rw [List.getLast?_append_of_ne_nil _ (by simp)]
    intro hlast
    exact (hchild dot (List.mem_of_getLast? hlast)).2 rfl
  · rcases List.mem_append.1 hb with hb | hb
    · split at hb
      · cases hb
      · rcases List.mem_append.1 hb with hb | hb
        · exact hlegal b hb
        · rw [List.mem_singleton.1 hb]
          decide
    · exact (hchild b hb).1

end

/-! ## What the writer leaves -/

section
variable {α : Type} {set : Reg → Bytes → α → Option (Status × Reg)} {get : Reg → Bytes → Option (Except Status α)}
  {registry : Bytes} {s s' : Reg}

/-- The entries of a list are stored below the node, and nothing else is. -/
structure HoldsList (get : Reg → Bytes → Option (Except Status α)) (registry : Bytes) (s : Reg) (list : List α) : Prop where
  inv : RInv s
  entry : ∀ i (hi : i < list.length), s.map (entryName registry i) ≠ none ∧
    get s (entryName registry i) = some (.ok list[i])
  only : ∀ n, Ancestor registry n → s.map n ≠ none → ∃ i < list.length, covers (entryName registry i) n = true
  node : s.map registry = if list = [] then none else some (some .registry)

/-- Storing the next entry. -/
theorem HoldsList.snoc (hi : Inverse set get) {list : List α} (h : HoldsList get registry s list) {entry : α}
    (hst : set s (entryName registry list.length) entry = some (.ok, s')) :
    HoldsList get registry s' (list ++ [entry]) := by
  have hinv := hi.inv h.inv hst
  have hempty : ∀ n, covers (entryName registry list.length) n = true → s.map n = none := by
    intro n hn
    by_contra hne
    obtain ⟨rest, hrest, -⟩ := covers_entry hn
    obtain ⟨j, hj, hc⟩ := h.only n ⟨_, hrest⟩ hne
    exact absurd (covers_entry_unique hc hn) (Nat.ne_of_lt hj)
  obtain ⟨hstored, hget⟩ := hi.stores h.inv hempty hst
  -- what is at or below another entry stays
  have hkeep : ∀ i < list.length, ∀ n, covers (entryName registry i) n = true → s'.map n = s.map n := by
    intro i hlt n hn
    have hne : i ≠ list.length := Nat.ne_of_lt hlt
    refine hi.frame h.inv hst ?_ fun hanc => ?_
    · rw [Bool.eq_false_iff]
      exact fun hc => hne (covers_entry_unique hn hc)
    · have hcov := covers_trans hn (covers_iff.2 (.inr (.inr hanc)))
      rw [covers_entryName_ne hne] at hcov
      cases hcov
  refine ⟨hinv, fun i hlt => ?_, fun n hanc hne => ?_, ?_⟩
  · rw [List.length_append, List.length_singleton] at hlt
    rcases Nat.lt_succ_iff_lt_or_eq.1 hlt with hlt | rfl
    · obtain ⟨hst', hget'⟩ := h.entry i hlt
      rw [hkeep i hlt _ (covers_self _), hi.local_get h.inv hinv (hkeep i hlt), List.getElem_append_left hlt]
      exact ⟨hst', hget'⟩
    · rw [List.getElem_concat_length rfl]
      exact ⟨hstored, hget⟩
  · rw [List.length_append, List.length_singleton]
    by_cases hc : covers (entryName registry list.length) n = true
    · exact ⟨list.length, by omega, hc⟩
    · have hnot : ¬ Ancestor n (entryName registry list.length) := by
        rintro ⟨r', hr'⟩
        obtain ⟨r, rfl⟩ := hanc
        rw [entryName, List.append_assoc, List.cons_append] at hr'
        have hnum := (List.cons.inj (List.append_cancel_left hr')).2
        exact dot_notMem_numeral (i := list.length) (by simp [hnum])
      rw [hi.frame h.inv hst (by simpa using hc) hnot] at hne
      obtain ⟨j, hj, hcj⟩ := h.only n hanc hne
      exact ⟨j, by omega, hcj⟩
  · rw [hi.parent h.inv hempty hst entryName_parent, h.node]
    split <;> simp

/-- A loop that returns 0 stores the rest of the list. -/
theorem set_entries_holds (hi : Inverse set get) (hne : registry ≠ []) {list : List α} :
    ∀ {s : Reg} {done : List α}, HoldsList get registry s done → done.length < 2 ^ 31 →
      set_entries set none registry s done.length list = some (.ok, s') →
      HoldsList get registry s' (done ++ list) ∧ (done ++ list).length < 2 ^ 31 := by
  induction list with
  | nil =>
    intro s done h hlen hst
    cases hst
    rw [List.append_nil]
    exact ⟨h, hlen⟩
  | cons entry list ih =>
    intro s done h _ hst
    rw [set_entries] at hst
    dsimp only [Option.map_none] at hst
    split at hst
    · rename_i r hmake
      cases hst
      exact absurd rfl (make_registry_error hmake)
    · rename_i name hmake
      rw [make_entryName hne hmake] at hst
      split at hst
      · cases hst
      · rename_i s₁ hset
        split at hst
        · rename_i hlen
          have hlength : (done ++ [entry]).length = done.length + 1 := List.length_append
          rw [← hlength] at hst hlen
          have hnext := ih (h.snoc hi hset) hlen hst
          rwa [List.append_assoc, List.singleton_append] at hnext
        · cases hst
      · cases hst
        contradiction

end

/-! ## The order of the reader -/

/-- The positions below `n` in the order of their numerals as text. -/
def textOrder (n : Nat) : List Nat := (List.range n).insertionSort fun i j => caseLe (numeral 10 i) (numeral 10 j)

/-- The entries of a list in the order of their positions as text. -/
def inTextOrder {α : Type} (list : List α) : List α := (textOrder list.length).filterMap (list[·]?)

theorem textOrder_perm (n : Nat) : (textOrder n).Perm (List.range n) := List.perm_insertionSort _ _

theorem numeral_caseLe_antisymm {i j : Nat} (h₁ : caseLe (numeral 10 i) (numeral 10 j))
    (h₂ : caseLe (numeral 10 j) (numeral 10 i)) : i = j := by
  have hlower : ∀ k, (numeral 10 k).map tolower = numeral 10 k := by
    intro k
    nth_rewrite 2 [← List.map_id (numeral 10 k)]
    exact List.map_congr_left fun c hc => (digit_facts hc).2.2
  unfold caseLe strcasecmp at h₁ h₂
  rw [hlower, hlower] at h₁ h₂
  have heq : compare (numeral 10 i) (numeral 10 j) = .eq := Std.OrientedCmp.isLE_antisymm h₁ h₂
  exact numeral_inj (by decide) (by decide) (Std.LawfulEqOrd.eq_of_compare heq)

theorem textOrder_pairwise (n : Nat) :
    (textOrder n).Pairwise fun i j => caseLe (numeral 10 i) (numeral 10 j) := by
  have htrans : IsTrans Nat fun i j => caseLe (numeral 10 i) (numeral 10 j) := ⟨fun _ _ _ => IsTrans.trans _ _ _⟩
  have htotal : Std.Total fun i j => caseLe (numeral 10 i) (numeral 10 j) := ⟨fun _ _ => Std.Total.total _ _⟩
  exact List.pairwise_insertionSort _ _

/-- Positions of one digit are in order. -/
theorem textOrder_short {n : Nat} (h : n ≤ 10) : textOrder n = List.range n := by
  have hall : ∀ n : Fin 11, (List.range n).Pairwise fun i j => caseLe (numeral 10 i) (numeral 10 j) := by decide +kernel
  exact (hall ⟨n, by omega⟩).insertionSort_eq

/-- The text `10` comes before `2`. -/
theorem textOrder_long {n : Nat} (h : 10 < n) : textOrder n ≠ List.range n := by
  intro heq
  have hpair := textOrder_pairwise n
  rw [heq] at hpair
  have hle := List.pairwise_iff_getElem.1 hpair 2 10 (by simpa using by omega) (by simpa using h) (by decide)
  rw [List.getElem_range, List.getElem_range] at hle
  exact absurd hle (by decide +kernel)

/-! ## What the reader returns -/

section
variable {α : Type} {set : Reg → Bytes → α → Option (Status × Reg)} {get : Reg → Bytes → Option (Except Status α)}
  {registry : Bytes} {s : Reg} {list : List α}

/-- The children of the node are the names of the entries. -/
theorem HoldsList.child_iff (h : HoldsList get registry s list) (hne : registry ≠ []) (n : Bytes) :
    Child registry n ∧ s.map n ≠ none ↔ n ∈ (List.range list.length).map (entryName registry) := by
  rw [Child, if_neg hne, List.mem_map]
  constructor
  · rintro ⟨hparent, hst⟩
    obtain ⟨r, rfl, hr⟩ := beforeLastDot_some.1 hparent
    obtain ⟨i, hi, hc⟩ := h.only _ ⟨r, rfl⟩ hst
    obtain ⟨rest, hrest, hend⟩ := covers_entry hc
    have heq := (List.cons.inj (List.append_cancel_left hrest)).2
    refine ⟨i, List.mem_range.2 hi, ?_⟩
    rcases hend with rfl | hhead
    · rw [heq, List.append_nil]
      rfl
    · -- a name further below has a dot
      refine absurd ?_ hr
      rw [heq]
      exact List.mem_append.2 (.inr (List.mem_of_mem_head? hhead))
  · rintro ⟨i, hi, rfl⟩
    exact ⟨entryName_parent, (h.entry i (List.mem_range.1 hi)).1⟩

theorem entryName_inj {i j : Nat} (h : entryName registry i = entryName registry j) : i = j := by
  have hnum := (List.cons.inj (List.append_cancel_left h)).2
  exact numeral_inj (by decide) (by decide) hnum

theorem caseLe_entryName {i j : Nat} :
    caseLe (entryName registry i) (entryName registry j) ↔ caseLe (numeral 10 i) (numeral 10 j) := by
  have hsplit : ∀ k, entryName registry k = (registry ++ [dot]) ++ numeral 10 k := by
    intro k
    rw [entryName, List.append_assoc, List.singleton_append]
  rw [caseLe, hsplit, hsplit, strcasecmp_append]
  rfl

theorem HoldsList.children_perm (h : HoldsList get registry s list) (hne : registry ≠ []) :
    (child_names s registry).Perm ((List.range list.length).map (entryName registry)) := by
  refine (List.perm_ext_iff_of_nodup (children_nodup h.inv) ?_).2 fun n => (mem_children h.inv).trans (h.child_iff hne n)
  exact List.nodup_range.map fun _ _ => entryName_inj

theorem HoldsList.children_length (h : HoldsList get registry s list) (hne : registry ≠ []) :
    (child_names s registry).length = list.length := by
  rw [(h.children_perm hne).length_eq, List.length_map, List.length_range]

/-- What the reader counts and lists. -/
theorem HoldsList.children (h : HoldsList get registry s list) (hne : registry ≠ []) (hv : nr_reg_is_valid registry = .ok)
    (hlist : list ≠ []) :
    nr_reg_local_get_child_count s registry = some (.ok (UInt32.ofNat list.length)) ∧
      nr_reg_local_get_children s registry (list.length + 1) =
        some (.ok ((textOrder list.length).map (entryName registry))) := by
  have hperm := h.children_perm hne
  have hreg : s.map registry = some (some .registry) := by
    rw [h.node, if_neg hlist]
  have hsort : qsort (child_names s registry) = (textOrder list.length).map (entryName registry) := by
    refine qsort_unique (((textOrder_perm _).map _).trans hperm.symm) ?_ ?_
    · rw [List.pairwise_map]
      exact (textOrder_pairwise _).imp caseLe_entryName.2
    · intro a ha b hb hab hba
      obtain ⟨i, -, rfl⟩ := List.mem_map.1 (hperm.mem_iff.1 ha)
      obtain ⟨j, -, rfl⟩ := List.mem_map.1 (hperm.mem_iff.1 hb)
      rw [numeral_caseLe_antisymm (caseLe_entryName.1 hab) (caseLe_entryName.1 hba)]
  rw [child_count_eq h.inv hreg, counted_names_eq hne, get_children_eq h.inv hv (Nat.succ_pos _), h.children_length hne,
    if_pos (by omega), hsort]
  exact ⟨rfl, rfl⟩

theorem HoldsList.child_registry (h : HoldsList get registry s list) (hne : registry ≠ [])
    (hv : nr_reg_is_valid registry = .ok) (hlist : list ≠ []) (hlen : list.length < 2 ^ 31) {i : Nat}
    (hi : i < (textOrder list.length).length) :
    NR_reg_get_child_registry s registry i = some (.ok (entryName registry (textOrder list.length)[i])) := by
  obtain ⟨hcount, hget⟩ := h.children hne hv hlist
  have hofNat : (UInt32.ofNat list.length).toNat = list.length := UInt32.toNat_ofNat_of_lt' (Nat.lt_trans hlen (by decide))
  have hi' : i < list.length := by
    rw [(textOrder_perm _).length_eq, List.length_range] at hi
    exact hi
  unfold NR_reg_get_child_registry
  rw [hcount]
  dsimp only
  rw [hofNat, if_neg (Nat.not_le.2 hi'), hget, Option.map_some]
  dsimp only
  rw [List.getElem?_map, List.getElem?_eq_getElem hi]
  rfl

/-- The loop of the reader, from position `i` on. -/
theorem get_entries_eq (h : HoldsList get registry s list) (hne : registry ≠ []) (hv : nr_reg_is_valid registry = .ok)
    (hlist : list ≠ []) (hlen : list.length < 2 ^ 31) {n i : Nat} (hn : i + n = (textOrder list.length).length)
    (tailq : List α) :
    get_entries get s registry n i tailq =
      some (.ok, tailq ++ ((textOrder list.length).drop i).filterMap (list[·]?)) := by
  induction n generalizing i tailq with
  | zero =>
    rw [get_entries, List.drop_eq_nil_of_le (by omega)]
    simp
  | succ n ih =>
    have hi : i < (textOrder list.length).length := by omega
    have hpos : (textOrder list.length)[i] < list.length :=
      List.mem_range.1 ((textOrder_perm _).mem_iff.1 (List.getElem_mem hi))
    rw [get_entries, h.child_registry hne hv hlist hlen hi]
    dsimp only
    rw [(h.entry _ hpos).2]
    dsimp only
    rw [ih (by omega), List.drop_eq_getElem_cons hi,
      List.filterMap_cons_some (b := list[(textOrder list.length)[i]]) (List.getElem?_eq_getElem hpos),
      List.append_assoc, List.singleton_append]

/-- Positions of a list, as the entries there. -/
theorem filterMap_positions {l : List Nat} (h : ∀ i ∈ l, i < list.length) :
    (l.filterMap (list[·]?)).map some = l.map (list[·]?) := by
  induction l with
  | nil => rfl
  | cons i l ih =>
    have hlt := h i List.mem_cons_self
    have hi := List.getElem?_eq_getElem hlt
    rw [List.filterMap_cons_some (b := list[i]) hi, List.map_cons, List.map_cons, hi,
      ih fun j hj => h j (List.mem_cons_of_mem _ hj)]

theorem inTextOrder_short (h : list.length ≤ 10) : inTextOrder list = list := by
  rw [inTextOrder, textOrder_short h]
  apply List.map_injective_iff.2 (Option.some_injective α)
  rw [filterMap_positions fun i hi => List.mem_range.1 hi]
  refine List.ext_getElem (by simp) fun i h₁ h₂ => ?_
  have hi : i < list.length := by simpa using h₂
  simp [hi]

/-- Where no two entries are equal, the order shows. -/
theorem inTextOrder_distinct (hnodup : list.Nodup) (h : inTextOrder list = list) : list.length ≤ 10 := by
  by_contra hlong
  refine textOrder_long (Nat.not_le.1 hlong) ?_
  have hlength : (textOrder list.length).length = list.length := by
    rw [(textOrder_perm _).length_eq, List.length_range]
  have hpos : ∀ i ∈ textOrder list.length, i < list.length := fun i hi =>
    List.mem_range.1 ((textOrder_perm _).mem_iff.1 hi)
  have hmap := filterMap_positions hpos
  rw [← inTextOrder, h] at hmap
  refine List.ext_getElem (by simpa using hlength) fun i h₁ h₂ => ?_
  have hi : i < list.length := by omega
  have hat := hpos _ (List.getElem_mem h₁)
  have hentry := congrArg (·[i]?) hmap
  simp only [List.getElem?_map, List.getElem?_eq_getElem hi, List.getElem?_eq_getElem h₁, Option.map_some,
    List.getElem?_eq_getElem hat, Option.some.injEq] at hentry
  rw [List.getElem_range]
  exact (hnodup.getElem_inj_iff.1 hentry).symm

/-- A write that returns 0, whatever was stored before it. -/
theorem write_holds {beh : nr_reg_cb_info → UInt8} {ok : Reg → RegOp → Prop} {evs : List (RegOp × Status)}
    (hrun : Reaches beh ok evs s) (hi : Inverse set get) {parent child : Bytes} {s' : Reg}
    (hst : nr_c2ru_set_children beh set none s parent child list = some (.ok, s')) :
    ∃ registry, nr_c2ru_make_registry parent child = .ok registry ∧ HoldsList get registry s' list ∧
      list.length < 2 ^ 31 := by
  unfold nr_c2ru_set_children at hst
  cases hmake : nr_c2ru_make_registry parent child with
  | error r =>
    rw [hmake] at hst
    cases hst
    exact absurd rfl (make_registry_error hmake)
  | ok registry =>
    rw [hmake] at hst
    dsimp only at hst
    obtain ⟨hne, hv⟩ := make_registry_valid hmake
    cases hdel : nr_reg_local_del beh s registry with
    | none =>
      rw [hdel] at hst
      cases hst
    | some x =>
      obtain ⟨r, s₁⟩ := x
      rw [hdel] at hst
      obtain ⟨-, hinv, hmap, -⟩ := del_spec hrun.rinv hv hdel
      -- nothing is left at the node or below it
      have hgone : ∀ n, covers registry n = true → s₁.map n = none := by
        intro n hn
        rw [hmap]
        dsimp only
        rw [if_neg fun hroot => hne hroot.1, if_pos hn]
      have hempty : HoldsList get registry s₁ [] := by
        refine ⟨hinv, fun i hlt => absurd hlt (Nat.not_lt_zero i), fun n hanc hst => ?_, hgone _ (covers_self _)⟩
        exact absurd (hgone n (covers_iff.2 (.inr (.inr hanc)))) hst
      obtain ⟨hholds, hlen⟩ := set_entries_holds hi hne hempty (Nat.two_pow_pos 31) hst
      exact ⟨registry, rfl, hholds, hlen⟩

/-! ## The count -/

/-- Nothing is written behind the counter of an empty list, which has no node. -/
theorem HoldsList.count_nil (h : HoldsList get registry s []) (hv : nr_reg_is_valid registry = .ok) (behind : BehindCount) :
    NR_reg_get_child_count behind s registry = some (.error .R_NOT_FOUND, registry) := by
  unfold NR_reg_get_child_count
  rw [h.inv.fetch_node hv, map_none.1 h.node]

theorem HoldsList.count_children (h : HoldsList get registry s list) (hlist : list ≠ []) (behind : BehindCount) :
    NR_reg_get_child_count behind s registry = if behind = .other then none else
      let registry := if behind = .registry then [] else registry
      some (.ok (UInt32.ofNat (counted_names s registry).length), registry) := by
  obtain ⟨p, node, hp, hn, hval, -⟩ := h.inv.node_of_map (h.node.trans (if_neg hlist))
  have htype : node.type = .REGISTRY := by
    rw [← Node.value_type, hval]
    rfl
  unfold NR_reg_get_child_count
  rw [fetch_stored h.inv hp hn, if_neg (by simp [htype])]
  dsimp only
  rw [count_children_eq h.inv]
  rfl

/-- Where nothing is used behind the counter, the reader returns the entries in
the order of their positions as text. -/
theorem read_back {beh : nr_reg_cb_info → UInt8} {ok : Reg → RegOp → Prop} {evs : List (RegOp × Status)}
    (hrun : Reaches beh ok evs s) (hi : Inverse set get) {parent child : Bytes} {s' : Reg}
    (hst : nr_c2ru_set_children beh set none s parent child list = some (.ok, s')) :
    nr_c2ru_get_children .unused get s' parent child = some (.ok, inTextOrder list) := by
  obtain ⟨registry, hmake, hholds, hlen⟩ := write_holds hrun hi hst
  obtain ⟨hne, hv⟩ := make_registry_valid hmake
  unfold nr_c2ru_get_children
  rw [hmake]
  dsimp only
  by_cases hlist : list = []
  · subst hlist
    rw [hholds.count_nil hv]
    rfl
  · have hofNat : (UInt32.ofNat list.length).toNat = list.length :=
      UInt32.toNat_ofNat_of_lt' (Nat.lt_trans hlen (by decide))
    have hlength : 0 + list.length = (textOrder list.length).length := by
      rw [(textOrder_perm _).length_eq, List.length_range, Nat.zero_add]
    have hcounted : (counted_names s' registry).length = list.length := by
      rw [counted_names_eq hne, hholds.children_length hne]
    rw [hholds.count_children hlist, if_neg (by decide)]
    dsimp only
    rw [if_neg (by decide), hcounted, hofNat, get_entries_eq hholds hne hv hlist hlen hlength]
    rfl

/-! ## The children of the root -/

/-- What `get` makes of names, one after the other, without those it does not
find. -/
def read_names (get : Reg → Bytes → Option (Except Status α)) (s : Reg) : List Bytes → Option (Status × List α)
  | [] => some (.ok, [])
  | name :: names =>
    match get s name with
    | none => none
    | some (.error .R_NOT_FOUND) => read_names get s names
    | some (.error r) => some (r, [])
    | some (.ok entry) => (read_names get s names).map fun (r, list) => (r, entry :: list)

/-- The reader returns the list. Where the counter has cleared the name, it
reads what is stored right below the root. -/
def ReadsBack (behind : BehindCount) (get : Reg → Bytes → Option (Except Status α)) (s : Reg) (list : List α) : Prop :=
  list = [] ∨ match behind with
    | .unused => inTextOrder list = list
    | .registry => s.map [] = some (some .registry) ∧
        (child_names s []).length ≤ (counted_names s []).length % 2 ^ 32 ∧
        read_names get s (qsort (child_names s [])) = some (.ok, list)
    | .other => False

/-- What is listed one by one, where the count is that of the names. -/
theorem child_registry_at (h : RInv s) (hroot : s.map [] = some (some .registry)) {i : Nat}
    (hi : i < (counted_names s []).length % 2 ^ 32) : NR_reg_get_child_registry s [] i =
      some (if (child_names s []).length ≤ (counted_names s []).length % 2 ^ 32 then
        match (qsort (child_names s []))[i]? with
        | none => .error .R_NOT_FOUND
        | some child => .ok child
      else .error .R_BAD_ARGS) := by
  have hcount : (UInt32.ofNat (counted_names s []).length).toNat = (counted_names s []).length % 2 ^ 32 :=
    UInt32.toNat_ofNat'
  unfold NR_reg_get_child_registry
  rw [child_count_eq h hroot]
  dsimp only
  rw [hcount, if_neg (Nat.not_le.2 hi), get_children_eq h (by decide) (Nat.succ_pos _)]
  by_cases hle : (child_names s []).length ≤ (counted_names s []).length % 2 ^ 32
  · rw [if_pos (Nat.lt_succ_of_le hle), if_pos hle]
    rfl
  · rw [if_neg fun hlt => hle (Nat.le_of_lt_succ hlt), if_neg hle]
    rfl

/-- The loop of the reader below the root, from position `i` on. -/
theorem get_entries_root (h : RInv s) (hroot : s.map [] = some (some .registry))
    (hle : (child_names s []).length ≤ (counted_names s []).length % 2 ^ 32) {n i : Nat}
    (hn : i + n = (counted_names s []).length % 2 ^ 32) (tailq : List α) :
    get_entries get s [] n i tailq =
      (read_names get s ((qsort (child_names s [])).drop i)).map fun (r, list) => (r, tailq ++ list) := by
  have hlength : (qsort (child_names s [])).length = (child_names s []).length := (qsort_perm _).length_eq
  induction n generalizing i tailq with
  | zero =>
    rw [get_entries, List.drop_eq_nil_of_le (by omega), read_names]
    simp
  | succ n ih =>
    rw [get_entries, child_registry_at h hroot (by omega), if_pos hle]
    by_cases hi : i < (qsort (child_names s [])).length
    · rw [List.getElem?_eq_getElem hi, List.drop_eq_getElem_cons hi, read_names]
      dsimp only
      cases hget : get s (qsort (child_names s []))[i] with
      | none => rfl
      | some o =>
        cases o with
        | ok entry =>
          dsimp only
          rw [ih (by omega)]
          cases read_names get s ((qsort (child_names s [])).drop (i + 1)) <;> simp
        | error r =>
          cases r with
          | R_NOT_FOUND => exact ih (by omega) tailq
          | _ => simp
    · rw [List.getElem?_eq_none (Nat.not_lt.1 hi)]
      dsimp only
      rw [ih (by omega), List.drop_eq_nil_of_le (Nat.not_lt.1 hi), List.drop_eq_nil_of_le (by omega)]

/-- No child of the root is listed where the root is not stored. -/
theorem not_root (h : RInv s) (hno : s.map [] ≠ some (some .registry)) {i : Nat} {name : Bytes} :
    NR_reg_get_child_registry s [] i ≠ some (.ok name) := by
  unfold NR_reg_get_child_registry
  split
  · simp
  · simp
  · rename_i hcount
    exact absurd (child_count_registry h hcount) hno

/-- Where no child can be listed, the reader returns none. -/
theorem get_entries_none (hno : ∀ i name, NR_reg_get_child_registry s registry i ≠ some (.ok name)) {n i : Nat}
    {tailq l : List α} {r : Status} (h : get_entries get s registry n i tailq = some (r, l)) : l = tailq := by
  induction n generalizing i with
  | zero =>
    cases h
    rfl
  | succ n ih =>
    rw [get_entries] at h
    split at h
    · cases h
    · exact ih h
    · cases h
      rfl
    · rename_i name hname
      exact absurd hname (hno i name)

/-- Where the counter has cleared the name, the reader starts at the root. -/
theorem read_root (h : RInv s) (hlist : list ≠ []) :
    get_entries get s [] ((counted_names s []).length % 2 ^ 32) 0 [] = some (.ok, list) ↔
      s.map [] = some (some .registry) ∧ (child_names s []).length ≤ (counted_names s []).length % 2 ^ 32 ∧
        read_names get s (qsort (child_names s [])) = some (.ok, list) := by
  constructor
  · intro hreads
    have hcount : (counted_names s []).length % 2 ^ 32 ≠ 0 := fun hzero => by
      rw [hzero, get_entries] at hreads
      exact hlist (congrArg Prod.snd (Option.some.inj hreads)).symm
    have hroot : s.map [] = some (some .registry) := by
      by_contra hno
      exact hlist (get_entries_none (fun i name => not_root h hno) hreads)
    have hle : (child_names s []).length ≤ (counted_names s []).length % 2 ^ 32 := by
      by_contra hmore
      obtain ⟨n, hn⟩ := Nat.exists_eq_succ_of_ne_zero hcount
      rw [hn, get_entries, child_registry_at h hroot (Nat.pos_of_ne_zero hcount), if_neg hmore] at hreads
      cases hreads
    refine ⟨hroot, hle, ?_⟩
    rw [get_entries_root h hroot hle (Nat.zero_add _), List.drop_zero] at hreads
    obtain ⟨⟨r, l⟩, hfound, heq⟩ := Option.map_eq_some_iff.1 hreads
    cases heq
    exact hfound
  · rintro ⟨hroot, hle, hfound⟩
    rw [get_entries_root h hroot hle (Nat.zero_add _), List.drop_zero, hfound]
    rfl

/-- After a write that returns 0 the reader returns the list exactly if it is
empty, or nothing is used behind the counter and its entries are the same in the
order of their positions as text, or the counter clears the name and the entries
happen to be what is found below the root. The two orders are the same with at
most ten entries; with more they are not where the entries differ. -/
theorem list_round_trip_iff {beh : nr_reg_cb_info → UInt8} {ok : Reg → RegOp → Prop} {evs : List (RegOp × Status)}
    (hrun : Reaches beh ok evs s) (hi : Inverse set get) {parent child : Bytes} {s' : Reg}
    (hst : nr_c2ru_set_children beh set none s parent child list = some (.ok, s')) (behind : BehindCount) :
    (nr_c2ru_get_children behind get s' parent child = some (.ok, list) ↔ ReadsBack behind get s' list) ∧
      (list.length ≤ 10 → inTextOrder list = list) ∧ (list.Nodup → inTextOrder list = list → list.length ≤ 10) := by
  refine ⟨?_, inTextOrder_short, inTextOrder_distinct⟩
  obtain ⟨registry, hmake, hholds, hlen⟩ := write_holds hrun hi hst
  obtain ⟨hne, hv⟩ := make_registry_valid hmake
  by_cases hlist : list = []
  · subst hlist
    refine iff_of_true ?_ (.inl rfl)
    unfold nr_c2ru_get_children
    rw [hmake]
    dsimp only
    rw [hholds.count_nil hv]
  unfold ReadsBack
  rw [or_iff_right hlist]
  cases behind with
  | unused =>
    rw [read_back hrun hi hst]
    simp
  | other =>
    unfold nr_c2ru_get_children
    rw [hmake]
    dsimp only
    rw [hholds.count_children hlist, if_pos rfl]
    simp
  | registry =>
    have hread : nr_c2ru_get_children .registry get s' parent child =
        get_entries get s' [] ((counted_names s' []).length % 2 ^ 32) 0 [] := by
      unfold nr_c2ru_get_children
      rw [hmake]
      dsimp only
      rw [hholds.count_children hlist, if_neg (by decide)]
      dsimp only
      rw [if_pos rfl, UInt32.toNat_ofNat']
    rw [hread]
    exact read_root hholds.inv hlist

end

/-! ## Entries that are one number -/

def set_number (beh : nr_reg_cb_info → UInt8) (s : Reg) (name : Bytes) (entry : UInt32) : Option (Status × Reg) :=
  nr_reg_local_set_uint4 beh s name entry

def get_number (s : Reg) (name : Bytes) : Option (Except Status UInt32) :=
  (nr_reg_local_get_uint4 s name).map fun
    | .ok (._nr_uint4 v) => .ok v
    | .ok _ => .error .R_INTERNAL
    | .error r => .error r

section
variable {beh : nr_reg_cb_info → UInt8} {s s' : Reg} {name : Bytes} {entry : UInt32}

theorem set_number_cases (h : RInv s) (hst : set_number beh s name entry = some (.ok, s')) :
    RInv s' ∧ ((∃ v, s.map name = some (some v) ∧ ∃ w, s'.map = Function.update s.map name w) ∨
      (s.map name = none ∧ Created s name (.scalar (._nr_uint4 entry)) s')) := by
  have hset : set beh s name (.scalar (._nr_uint4 entry)) = some (.ok, s') := hst
  have hsafe : Safe s (.set name (.scalar (._nr_uint4 entry))) := safe_of_ok h hset
  rcases set_cases h hsafe hset with ⟨hne, -⟩ | ⟨p, node, hp, hn, -, -, hinv, hmap, -⟩ |
    ⟨hp, -, -, -, hinv, hc⟩
  · exact absurd rfl hne
  · refine ⟨hinv, .inl ⟨node.value, ?_, _, hmap⟩⟩
    rw [Reg.map, hp, Option.map_some, hn]
    rfl
  · have hstored : (Arg.scalar (._nr_uint4 entry)).written none = .scalar (._nr_uint4 entry) :=
      congrArg Value.scalar (stored_eq (by simp [Scalar.type]))
    rw [hstored] at hc
    exact ⟨hinv, .inr ⟨map_none.2 hp, hc⟩⟩

/-- What `get_number` reads, in terms of the map. -/
theorem get_number_map (h : RInv s) : get_number s name =
    if nr_reg_is_valid name ≠ .ok then some (.error (nr_reg_is_valid name)) else
      match s.map name with
      | none => some (.error .R_NOT_FOUND)
      | some none => none
      | some (some (.scalar (._nr_uint4 v))) => some (.ok v)
      | some (some _) => some (.error .R_FAILED) := by
  unfold get_number nr_reg_local_get_uint4 nr_reg_get
  by_cases hv : nr_reg_is_valid name = .ok
  · rw [if_neg (not_not.2 hv), h.fetch_node hv, Reg.map]
    cases hp : s.ptr name with
    | none => rfl
    | some p =>
      cases hn : s.nodes p with
      | none => simp [hn]
      | some node =>
        cases node with
        | scalar v => cases v <;> simp [hn, Node.type, Node.value, Scalar.type]
        | registry => simp [hn, Node.type, Node.value]
        | array string length data => cases string <;> simp [hn, Node.type, Node.value, arrayType]
  · rw [if_pos hv, fetch_node_invalid hv]
    rfl

theorem get_number_congr (h : RInv s) (h' : RInv s') (hmap : s'.map name = s.map name) :
    get_number s' name = get_number s name := by
  rw [get_number_map h', get_number_map h, hmap]

theorem number_inverse (beh : nr_reg_cb_info → UInt8) : Inverse (set_number beh) get_number where
  inv h hst := (set_number_cases h hst).1
  stores := by
    intro s s' name entry h hempty hst
    obtain ⟨hinv, ⟨v, hv, -⟩ | ⟨-, hc⟩⟩ := set_number_cases h hst
    · rw [hempty name (covers_self name)] at hv
      cases hv
    · have hmap : s'.map name = some (some (.scalar (._nr_uint4 entry))) := by simp [hc.map]
      refine ⟨by simp [hmap], ?_⟩
      obtain ⟨p, node, hp, hn, hval, -, -⟩ := hinv.node_of_map hmap
      unfold get_number nr_reg_local_get_uint4 nr_reg_get
      rw [fetch_stored hinv hp hn]
      cases node with
      | scalar v =>
        cases hval
        rfl
      | registry => cases hval
      | array string length data => cases hval
  parent := by
    intro s s' name entry p h hempty hst hp
    obtain ⟨-, ⟨v, hv, -⟩ | ⟨-, hc⟩⟩ := set_number_cases h hst
    · rw [hempty name (covers_self name)] at hv
      cases hv
    · have hne : p ≠ name := fun heq => absurd (beforeLastDot_length hp) (by rw [heq]; exact Nat.lt_irrefl _)
      rw [hc.map]
      dsimp only
      rw [if_neg hne]
      cases hptr : s.ptr p with
      | none => rw [newAncestors_absent hp hptr, if_pos List.mem_cons_self, map_none.2 hptr, Option.none_or]
      | some q => simp [newAncestors_stored hp hptr, Reg.map, hptr]
  frame := by
    intro s s' name entry n h hst hcov hanc
    have hne : n ≠ name := by
      rintro rfl
      rw [covers_self] at hcov
      cases hcov
    obtain ⟨-, ⟨-, -, w, hmap⟩ | ⟨-, hc⟩⟩ := set_number_cases h hst
    · rw [hmap, Function.update_of_ne hne]
    · rw [hc.map]
      dsimp only
      rw [if_neg hne, if_neg fun hin => hanc (newAncestors_ancestor hin)]
  local_get h h' hmap := get_number_congr h h' (hmap _ (covers_self _))

end

/-- Three numbers replace what was stored before. -/
theorem list_round_trip_three : ∃ evs s s', Reaches (fun _ => 0) (fun _ _ => True) evs s ∧
    nr_c2ru_set_children (fun _ => 0) (set_number fun _ => 0) none s (str "a") (str "b") [7, 8, 9] = some (.ok, s') ∧
    nr_c2ru_get_children .unused get_number s' (str "a") (str "b") = some (.ok, [7, 8, 9]) := by
  have hex : (trace (fun _ => 0) (fun _ _ => true) [.set (str "a.b.5") (.string (str "x"))]).any (fun x =>
      (nr_c2ru_set_children (fun _ => 0) (set_number fun _ => 0) none x.2 (str "a") (str "b") [7, 8, 9]).any
        fun y => y.1 = .ok) = true := by decide +kernel
  obtain ⟨⟨rs, s⟩, htr, hx⟩ := (Option.any_eq_true _ _).1 hex
  obtain ⟨⟨r, s'⟩, hst, hr⟩ := (Option.any_eq_true _ _).1 hx
  obtain rfl : r = .ok := by simpa using hr
  have hreach : Reaches (fun _ => 0) (fun _ _ => True) _ s := (trace_reaches htr).mono fun _ _ _ => trivial
  obtain ⟨hiff, hshort, -⟩ := list_round_trip_iff hreach (number_inverse fun _ => 0) hst .unused
  exact ⟨_, s, s', hreach, hst, hiff.2 (.inr (hshort (by decide)))⟩

/-- Eleven numbers come back in another order; and where the name lies behind
the counter, the first child of the root is read as a number. -/
theorem list_round_trip_fails :
    (∃ evs s s', Reaches (fun _ => 0) (fun _ _ => True) evs s ∧
      nr_c2ru_set_children (fun _ => 0) (set_number fun _ => 0) none s (str "a") (str "b")
        [0, 1, 2, 3, 4, 5, 6, 7, 8, 9, 10] = some (.ok, s') ∧
      nr_c2ru_get_children .unused get_number s' (str "a") (str "b") = some (.ok, [0, 1, 10, 2, 3, 4, 5, 6, 7, 8, 9])) ∧
    ∃ evs s s', Reaches (fun _ => 0) (fun _ _ => True) evs s ∧
      nr_c2ru_set_children (fun _ => 0) (set_number fun _ => 0) none s (str "a") (str "b") [7] = some (.ok, s') ∧
      nr_c2ru_get_children .registry get_number s' (str "a") (str "b") = some (.R_FAILED, []) := by
  constructor
  · have hex : (trace (fun _ => 0) (fun _ _ => true) []).any (fun x => (nr_c2ru_set_children (fun _ => 0)
        (set_number fun _ => 0) none x.2 (str "a") (str "b") [0, 1, 2, 3, 4, 5, 6, 7, 8, 9, 10]).any
          fun y => y.1 = .ok) = true := by decide +kernel
    obtain ⟨⟨rs, s⟩, htr, hx⟩ := (Option.any_eq_true _ _).1 hex
    obtain ⟨⟨r, s'⟩, hst, hr⟩ := (Option.any_eq_true _ _).1 hx
    obtain rfl : r = .ok := by simpa using hr
    have hreach : Reaches (fun _ => 0) (fun _ _ => True) _ s := (trace_reaches htr).mono fun _ _ _ => trivial
    refine ⟨_, s, s', hreach, hst, ?_⟩
    rw [read_back hreach (number_inverse fun _ => 0) hst]
    decide +kernel
  · have hex : (trace (fun _ => 0) (fun _ _ => true) []).any (fun x => (nr_c2ru_set_children (fun _ => 0)
        (set_number fun _ => 0) none x.2 (str "a") (str "b") [7]).any fun y => y.1 = .ok &&
          nr_c2ru_get_children .registry get_number y.2 (str "a") (str "b") = some (.R_FAILED, [])) = true := by
      decide +kernel
    obtain ⟨⟨rs, s⟩, htr, hx⟩ := (Option.any_eq_true _ _).1 hex
    obtain ⟨⟨r, s'⟩, hst, hr⟩ := (Option.any_eq_true _ _).1 hx
    obtain ⟨hr, hget⟩ := Bool.and_eq_true_iff.1 hr
    obtain rfl : r = .ok := by simpa using hr
    exact ⟨_, s, s', (trace_reaches htr).mono fun _ _ _ => trivial, hst, of_decide_eq_true hget⟩

end Nrappkit.Registry
