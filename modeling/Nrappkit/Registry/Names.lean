import Nrappkit.Common
/-!
# Registry names

A name is the bytes of a C string such as `foo.bar.baz`; the root is the
empty one. `nr_reg_is_valid` looks at the ends of a name and at its bytes one
by one, so a valid name such as `a..b` can have an invalid ancestor.
-/

namespace Nrappkit.Registry

/-- `'.'` -/
def dot : UInt8 := 46

/-- `NR_REG_MAX_NR_REGISTRY_LEN`, the size of the array an `NR_registry` is. -/
def NR_REG_MAX_NR_REGISTRY_LEN : Nat := 128

/-- `isspace` of the C locale. -/
def isspace (c : UInt8) : Bool := c = 32 || (9 ≤ c && c ≤ 13)

/-- `isprint` of the C locale. -/
def isprint (c : UInt8) : Bool := 32 ≤ c && c ≤ 126

/-- A byte that may stand in a name. -/
def legalByte (c : UInt8) : Bool := !isspace c && isprint c && c != 47

def nr_reg_is_valid (name : Bytes) : Status :=
  -- no terminator in the array
  if NR_REG_MAX_NR_REGISTRY_LEN ≤ name.length then .R_BAD_ARGS
  else if name.head? = some dot then .R_BAD_ARGS
  else if name.getLast? = some dot then .R_BAD_ARGS
  else if name.all legalByte then .ok
  else .R_BAD_ARGS

theorem is_valid_iff {name : Bytes} : nr_reg_is_valid name = .ok ↔ name.length < NR_REG_MAX_NR_REGISTRY_LEN ∧
    name.head? ≠ some dot ∧ name.getLast? ≠ some dot ∧ ∀ c ∈ name, legalByte c = true := by
  unfold nr_reg_is_valid
  split
  · simp only [reduceCtorEq, false_iff]
    omega
  split
  · simp [*]
  split
  · simp [*]
  rename_i hlen hhead hlast
  simp [hhead, hlast, Nat.lt_of_not_le hlen]

theorem valid_no_zero {name : Bytes} (hv : nr_reg_is_valid name = .ok) : 0 ∉ name := by
  intro h0
  have hlegal := (is_valid_iff.1 hv).2.2.2 0 h0
  revert hlegal
  decide

/-- The key of a name in a table: the string with its terminator. -/
def nameKey (name : Bytes) : Bytes := name ++ [0]

theorem nameKey_inj {n m : Bytes} : nameKey n = nameKey m ↔ n = m := by
  simp [nameKey]

/-! ## Ancestors -/

/-- The name cut at its last dot: `strrchr` and a terminator written there. -/
def beforeLastDot : Bytes → Option Bytes
  | [] => none
  | c :: l => match beforeLastDot l with
    | some p => some (c :: p)
    | none => if c = dot then some [] else none

/-- `a` is the name `n` cut at one of its dots. -/
def Ancestor (a n : Bytes) : Prop := ∃ r, n = a ++ dot :: r

theorem beforeLastDot_none {n : Bytes} : beforeLastDot n = none ↔ dot ∉ n := by
  induction n with
  | nil => simp [beforeLastDot]
  | cons c l ih =>
    simp only [beforeLastDot]
    cases hl : beforeLastDot l with
    | some p =>
      have : dot ∈ l := by
        by_contra hn
        rw [ih.2 hn] at hl
        cases hl
      simp [this]
    | none =>
      have hdl := ih.1 hl
      by_cases hc : c = dot
      · simp [hc]
      · simp [hc, hdl, Ne.symm hc]

theorem beforeLastDot_some {n p : Bytes} : beforeLastDot n = some p ↔ ∃ r, n = p ++ dot :: r ∧ dot ∉ r := by
  induction n generalizing p with
  | nil => simp [beforeLastDot]
  | cons c l ih =>
    simp only [beforeLastDot]
    cases hl : beforeLastDot l with
    | some q =>
      obtain ⟨r, rfl, hr⟩ := ih.1 hl
      constructor
      · intro h
        cases h
        exact ⟨r, rfl, hr⟩
      · rintro ⟨r', heq, hr'⟩
        cases p with
        | nil =>
          simp only [List.nil_append, List.cons.injEq] at heq
          exact absurd (by simp [← heq.2]) hr'
        | cons d p =>
          simp only [List.cons_append, List.cons.injEq] at heq
          have := ih.2 ⟨r', heq.2, hr'⟩
          rw [hl] at this
          cases this
          rw [heq.1]
    | none =>
      have hdl := beforeLastDot_none.1 hl
      dsimp only
      constructor
      · intro h
        by_cases hc : c = dot
        · rw [if_pos hc] at h
          cases h
          exact ⟨l, by rw [hc]; rfl, hdl⟩
        · rw [if_neg hc] at h
          cases h
      · rintro ⟨r', heq, hr'⟩
        cases p with
        | nil =>
          simp only [List.nil_append, List.cons.injEq] at heq
          simp [heq.1]
        | cons d p =>
          simp only [List.cons_append, List.cons.injEq] at heq
          exact absurd (by simp [heq.2]) hdl

theorem beforeLastDot_length {n p : Bytes} (h : beforeLastDot n = some p) : p.length < n.length := by
  obtain ⟨r, rfl, -⟩ := beforeLastDot_some.1 h
  simp

theorem Ancestor.length {a n : Bytes} (h : Ancestor a n) : a.length < n.length := by
  obtain ⟨r, rfl⟩ := h
  simp

theorem Ancestor.trans {a b n : Bytes} (hab : Ancestor a b) (hbn : Ancestor b n) : Ancestor a n := by
  obtain ⟨r, rfl⟩ := hab
  obtain ⟨r', rfl⟩ := hbn
  exact ⟨r ++ dot :: r', by simp⟩

theorem not_ancestor {a n : Bytes} (h : beforeLastDot n = none) : ¬ Ancestor a n := by
  rintro ⟨r, rfl⟩
  exact beforeLastDot_none.1 h (by simp)

/-- The ancestors of a name are its parent and the parent's ancestors. -/
theorem ancestor_iff {a n p : Bytes} (h : beforeLastDot n = some p) : Ancestor a n ↔ a = p ∨ Ancestor a p := by
  obtain ⟨r, rfl, hr⟩ := beforeLastDot_some.1 h
  constructor
  · rintro ⟨r', heq⟩
    rw [List.append_eq_append_iff] at heq
    rcases heq with ⟨m, rfl, hm⟩ | ⟨m, rfl, hm⟩
    · cases m with
      | nil => exact .inl (by simp)
      | cons c m =>
        simp only [List.cons_append, List.cons.injEq] at hm
        exact absurd (by simp [hm.2]) hr
    · cases m with
      | nil => exact .inl (by simp)
      | cons c m =>
        simp only [List.cons_append, List.cons.injEq] at hm
        exact .inr ⟨m, by rw [hm.1]⟩
  · rintro (rfl | ⟨r', rfl⟩)
    · exact ⟨r, rfl⟩
    · exact ⟨r' ++ dot :: r, by simp⟩

/-- The ancestors of a name, the nearest first. The first argument bounds their
number. -/
def ancestorsUpTo : Nat → Bytes → List Bytes
  | 0, _ => []
  | n + 1, name => match beforeLastDot name with
    | none => []
    | some parent => parent :: ancestorsUpTo n parent

/-- The ancestors of a name, the nearest first. -/
def ancestors (name : Bytes) : List Bytes := ancestorsUpTo name.length name

theorem ancestorsUpTo_eq {n m : Nat} {name : Bytes} (hn : name.length ≤ n) (hm : name.length ≤ m) :
    ancestorsUpTo n name = ancestorsUpTo m name := by
  induction n generalizing m name with
  | zero =>
    have : name = [] := List.length_eq_zero_iff.1 (by omega)
    subst this
    cases m <;> rfl
  | succ n ih =>
    cases m with
    | zero =>
      have : name = [] := List.length_eq_zero_iff.1 (by omega)
      subst this
      rfl
    | succ m =>
      unfold ancestorsUpTo
      cases hp : beforeLastDot name with
      | none => rfl
      | some p =>
        have := beforeLastDot_length hp
        dsimp only
        rw [ih (m := m) (by omega) (by omega)]

theorem ancestors_none {name : Bytes} (h : beforeLastDot name = none) : ancestors name = [] := by
  unfold ancestors
  cases hn : name.length with
  | zero => rfl
  | succ n => rw [ancestorsUpTo, h]

theorem ancestors_some {name p : Bytes} (h : beforeLastDot name = some p) : ancestors name = p :: ancestors p := by
  have hlt := beforeLastDot_length h
  unfold ancestors
  cases hn : name.length with
  | zero => omega
  | succ n =>
    rw [ancestorsUpTo, h]
    dsimp only
    rw [ancestorsUpTo_eq (by omega) (Nat.le_refl _)]

theorem mem_ancestors {a name : Bytes} : a ∈ ancestors name ↔ Ancestor a name := by
  induction hn : name.length using Nat.strongRecOn generalizing name with
  | _ n ih =>
    cases hp : beforeLastDot name with
    | none => simp [ancestors_none hp, not_ancestor hp]
    | some p =>
      rw [ancestors_some hp, List.mem_cons, ancestor_iff hp, ih p.length (hn ▸ beforeLastDot_length hp) rfl]

instance (a n : Bytes) : Decidable (Ancestor a n) := decidable_of_iff _ mem_ancestors

/-- The name and its ancestors up to the root: the names an event visits. The
first argument bounds their number. -/
def path : Nat → Bytes → List Bytes
  | 0, _ => []
  | n + 1, tmp => tmp :: if tmp = [] then [] else path n ((beforeLastDot tmp).getD [])

theorem mem_path {n : Nat} {tmp k : Bytes} (hn : tmp.length < n) :
    k ∈ path n tmp ↔ k = tmp ∨ Ancestor k tmp ∨ k = [] := by
  induction n generalizing tmp with
  | zero => omega
  | succ n ih =>
    rw [path]
    by_cases ht : tmp = []
    · subst ht
      simp [not_ancestor (show beforeLastDot [] = none from rfl)]
    · rw [if_neg ht, List.mem_cons]
      cases hp : beforeLastDot tmp with
      | none =>
        have hpos : 0 < tmp.length := List.length_pos_iff.2 ht
        rw [Option.getD_none, ih (by simp; omega)]
        simp [not_ancestor hp, not_ancestor (show beforeLastDot [] = none from rfl)]
      | some p =>
        have := beforeLastDot_length hp
        rw [Option.getD_some, ih (by omega), ancestor_iff hp, or_assoc]

/-- The path goes from the deepest name to the shallowest. -/
theorem path_pairwise {n : Nat} {tmp : Bytes} (hn : tmp.length < n) :
    (path n tmp).Pairwise fun a b => b.length < a.length := by
  induction n generalizing tmp with
  | zero => omega
  | succ n ih =>
    rw [path]
    by_cases ht : tmp = []
    · simp [ht]
    · have hpos : 0 < tmp.length := List.length_pos_iff.2 ht
      have hlt : ((beforeLastDot tmp).getD []).length < tmp.length := by
        cases hp : beforeLastDot tmp with
        | none => simpa using hpos
        | some p => simpa using beforeLastDot_length hp
      rw [if_neg ht, List.pairwise_cons]
      refine ⟨fun b hb => ?_, ih (by omega)⟩
      rcases (mem_path (by omega)).1 hb with rfl | hb | rfl
      · exact hlt
      · exact Nat.lt_trans hb.length hlt
      · simpa using hpos

theorem path_nodup {n : Nat} {tmp : Bytes} (hn : tmp.length < n) : (path n tmp).Nodup := by
  refine (path_pairwise hn).imp ?_
  rintro a b hab rfl
  omega

end Nrappkit.Registry
