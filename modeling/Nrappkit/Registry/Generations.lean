import Nrappkit.Registry.LocalTheorems
import Nrappkit.Registry.Relay
/-!
# The ancestor of a generation

`NR_reg_make_child_registry` cuts a descendant so many generations below a
parent. It takes every name that begins with the parent's letters for a
descendant, also one that goes on without a dot, and below the root it starts
counting at the first dot, one generation late.
-/
open Lib

namespace Nrappkit.Registry

/-! ## The function -/

/-- The loop over the descendant: `rest` is what is left of it behind `length`
bytes. -/
def count_generations : Bytes → UInt32 → Nat → Option Nat
  | [], _, length => some length
  | c :: rest, generation, length =>
    if c = dot ∧ generation = 0 then some length
    else
      let generation := if c = dot then generation - 1 else generation
      if length + 1 ≥ NR_REG_MAX_NR_REGISTRY_LEN then none
      else count_generations rest generation (length + 1)

def NR_reg_make_child_registry (parent descendant : Bytes) (generation : UInt32) : Except Status Bytes :=
  if ¬ startsWith parent descendant then .error .R_BAD_ARGS
  else match count_generations (descendant.drop parent.length) generation parent.length with
    | none => .error .R_BAD_ARGS
    | some length => .ok (descendant.take length)

/-! ## What it is for -/

/-- The same letters, but for their case. -/
def SameLetters (a b : Bytes) : Prop := a.map tolower = b.map tolower

/-- `descendant` is `parent` or lies below it: the parent is the root, or the
descendant is the parent, or is cut back to it at a dot. -/
def Descends (parent descendant : Bytes) : Prop :=
  parent = [] ∨ ∃ p, SameLetters p parent ∧ (descendant = p ∨ Ancestor p descendant)

/-- The root has no components. -/
def components (n : Bytes) : Nat := if n = [] then 0 else n.count dot + 1

/-- `child` is `descendant` cut behind its first `k` components, or the whole
of it when it has fewer. -/
def CutAt (k : Nat) (child descendant : Bytes) : Prop :=
  if components descendant < k then child = descendant else covers child descendant = true ∧ components child = k

/-- The call succeeds exactly when the descendant is one, and then returns its
ancestor so many generations below the parent. -/
def SelectsAncestor (parent descendant : Bytes) (generation : UInt32) : Prop :=
  ((∃ child, NR_reg_make_child_registry parent descendant generation = .ok child) ↔ Descends parent descendant) ∧
  ∀ child, NR_reg_make_child_registry parent descendant generation = .ok child →
    CutAt (components parent + generation.toNat) child descendant

/-- Below the root the descendant has no component to lose; elsewhere it does
not go on without a dot. -/
def CountsRight (parent descendant : Bytes) (generation : UInt32) : Prop :=
  if parent = [] then components descendant ≤ generation.toNat
  else ¬ (startsWith parent descendant = true ∧ ∃ c, descendant[parent.length]? = some c ∧ c ≠ dot)

/-! ## The loop -/

/-- The loop stops behind the last dot it may pass, or at the end. -/
theorem count_generations_spec {rest : Bytes} (generation : UInt32) {length : Nat}
    (hlen : length + rest.length < NR_REG_MAX_NR_REGISTRY_LEN) :
    ∃ t, count_generations rest generation length = some (length + t.length) ∧
      (t = rest ∧ rest.count dot ≤ generation.toNat ∨
        Ancestor t rest ∧ t.count dot = generation.toNat) := by
  induction rest generalizing generation length with
  | nil => exact ⟨[], rfl, .inl ⟨rfl, by simp⟩⟩
  | cons c rest ih =>
    rw [List.length_cons] at hlen
    rw [count_generations]
    by_cases hstop : c = dot ∧ generation = 0
    · obtain ⟨rfl, rfl⟩ := hstop
      exact ⟨[], by simp, .inr ⟨⟨rest, rfl⟩, rfl⟩⟩
    · obtain ⟨t, ht, hcase⟩ := ih (if c = dot then generation - 1 else generation)
        (show length + 1 + rest.length < NR_REG_MAX_NR_REGISTRY_LEN by omega)
      rw [if_neg hstop]
      dsimp only
      rw [if_neg (by omega), ht]
      -- A dot that is passed is paid for.
      have hpaid : ∀ l : Bytes, (c :: l).count dot = l.count dot + (if c = dot then 1 else 0) := by
        intro l
        rw [List.count_cons]
        simp
      have hgen : generation.toNat =
          (if c = dot then generation - 1 else generation).toNat + (if c = dot then 1 else 0) := by
        by_cases hc : c = dot
        · have hpos : generation ≠ 0 := fun h0 => hstop ⟨hc, h0⟩
          have hle : 1 ≤ generation := by
            rw [UInt32.le_iff_toNat_le]
            exact Nat.pos_of_ne_zero fun h0 => hpos (UInt32.toNat_inj.1 h0)
          rw [if_pos hc, if_pos hc, UInt32.toNat_sub_of_le _ _ hle]
          have hle' := UInt32.le_iff_toNat_le.1 hle
          exact (Nat.sub_add_cancel hle').symm
        · rw [if_neg hc, if_neg hc, Nat.add_zero]
      refine ⟨c :: t, by rw [List.length_cons, Nat.add_assoc, Nat.add_comm 1], ?_⟩
      rcases hcase with ⟨rfl, hle⟩ | ⟨⟨r, rfl⟩, heq⟩
      · refine .inl ⟨rfl, ?_⟩
        rw [hpaid, hgen]
        exact Nat.add_le_add_right hle _
      · refine .inr ⟨⟨r, rfl⟩, ?_⟩
        rw [hpaid, hgen, heq]

/-! ## Letters -/

theorem tolower_dot {c : UInt8} : tolower c = dot ↔ c = dot := by
  unfold tolower dot
  split
  · rename_i h
    simp only [Bool.and_eq_true, decide_eq_true_eq, UInt8.le_iff_toNat_le] at h
    rw [← UInt8.toNat_inj, ← UInt8.toNat_inj, UInt8.toNat_add]
    simp only [UInt8.reduceToNat] at h ⊢
    omega
  · rfl

namespace SameLetters
variable {a b : Bytes}

theorem length (h : SameLetters a b) : a.length = b.length := by
  simpa using congrArg List.length h

theorem count_dot (h : SameLetters a b) : a.count dot = b.count dot := by
  have hlower : ∀ l : Bytes, (l.map tolower).count dot = l.count dot := by
    intro l
    rw [List.count_eq_countP, List.count_eq_countP, List.countP_map]
    apply List.countP_congr
    intro c _
    simp [tolower_dot]
  rw [← hlower a, h, hlower b]

theorem nil_iff (h : SameLetters a b) : a = [] ↔ b = [] := by
  rw [← List.length_eq_zero_iff, ← List.length_eq_zero_iff, h.length]

theorem components (h : SameLetters a b) : components a = components b := by
  rw [Registry.components, Registry.components, h.count_dot]
  simp only [h.nil_iff]

end SameLetters

theorem startsWith_iff {parent descendant : Bytes} :
    startsWith parent descendant = true ↔ ∃ p rest, descendant = p ++ rest ∧ SameLetters p parent := by
  rw [startsWith, decide_eq_true_eq]
  constructor
  · intro h
    exact ⟨_, _, (List.take_append_drop parent.length descendant).symm, h⟩
  · rintro ⟨p, rest, rfl, h⟩
    rw [← h.length, List.take_left]
    exact h

theorem components_append {p t : Bytes} (hp : p ≠ []) : components (p ++ t) = components p + t.count dot := by
  rw [components, components, if_neg (by simp [hp]), if_neg hp, List.count_append]
  omega

/-! ## What is returned -/

section
variable {parent p rest : Bytes}

/-- The name that is returned for a name that begins with the parent's
letters. -/
theorem make_child_eq (hsame : SameLetters p parent) (hlen : (p ++ rest).length < NR_REG_MAX_NR_REGISTRY_LEN)
    (generation : UInt32) :
    ∃ t, NR_reg_make_child_registry parent (p ++ rest) generation = .ok (p ++ t) ∧
      (t = rest ∧ rest.count dot ≤ generation.toNat ∨ Ancestor t rest ∧ t.count dot = generation.toNat) := by
  rw [List.length_append] at hlen
  obtain ⟨t, ht, hcase⟩ := count_generations_spec generation hlen
  refine ⟨t, ?_, hcase⟩
  have hstart := startsWith_iff.2 ⟨p, rest, rfl, hsame⟩
  have hpre : t <+: rest := by
    rcases hcase with ⟨rfl, -⟩ | ⟨⟨r, rfl⟩, -⟩
    · exact List.prefix_refl t
    · exact List.prefix_append t (dot :: r)
  have htake : (p ++ rest).take (p.length + t.length) = p ++ t := by
    rw [List.take_length_add_append, ← List.prefix_iff_eq_take.1 hpre]
  rw [NR_reg_make_child_registry, if_neg (not_not.2 hstart), ← hsame.length, List.drop_left, ht]
  dsimp only
  rw [htake]

theorem descends_iff (hsame : SameLetters p parent) :
    Descends parent (p ++ rest) ↔ parent = [] ∨ rest = [] ∨ rest.head? = some dot := by
  apply or_congr_right
  constructor
  · rintro ⟨q, hq, heq⟩
    have hlen : p.length = q.length := hsame.length.trans hq.length.symm
    rcases heq with heq | ⟨r, heq⟩
    · left
      rw [← List.append_nil q] at heq
      exact List.append_inj_right heq hlen
    · right
      rw [List.append_inj_right heq hlen, List.head?_cons]
  · rintro (rfl | hd)
    · exact ⟨p, hsame, .inl (List.append_nil p)⟩
    · obtain ⟨r, rfl⟩ := List.head?_eq_some_iff.1 hd
      exact ⟨p, hsame, .inr ⟨r, rfl⟩⟩

/-- Below a parent other than the root, a name that goes on with a dot is cut
where it should be. -/
theorem cut_below (hp : p ≠ []) {t : Bytes} {n : Nat} (hdot : rest = [] ∨ rest.head? = some dot)
    (hcase : t = rest ∧ rest.count dot ≤ n ∨ Ancestor t rest ∧ t.count dot = n) :
    CutAt (components p + n) (p ++ t) (p ++ rest) := by
  rw [CutAt, components_append hp]
  rcases hcase with ⟨rfl, hle⟩ | ⟨⟨r, rfl⟩, heq⟩
  · -- the end was reached, with generations left or with none
    split
    · rfl
    · refine ⟨covers_iff.2 (.inr (.inl rfl)), ?_⟩
      rw [components_append hp]
      omega
  · have hcount : t.count dot ≤ (t ++ dot :: r).count dot := by
      rw [List.count_append]
      omega
    rw [if_neg (by omega)]
    refine ⟨covers_iff.2 (.inr (.inr ⟨r, by simp⟩)), ?_⟩
    rw [components_append hp, heq]

/-- Below the root one component more than asked for is left. -/
theorem cut_at_root {t descendant : Bytes} {n : Nat} (hhead : descendant.head? ≠ some dot)
    (hcase : t = descendant ∧ descendant.count dot ≤ n ∨ Ancestor t descendant ∧ t.count dot = n) :
    CutAt n t descendant ↔ components descendant ≤ n := by
  have hcomp : ∀ l : Bytes, l ≠ [] → components l = l.count dot + 1 := fun l hl => if_neg hl
  rw [CutAt]
  rcases hcase with ⟨rfl, hle⟩ | ⟨⟨r, rfl⟩, heq⟩
  · split
    · simp only [true_iff]
      omega
    · rw [covers_iff.2 (.inr (.inl rfl))]
      simp only [true_and]
      omega
  · -- no name begins with the dot that would end the root's components
    have hne : t ≠ [] := by
      rintro rfl
      exact hhead rfl
    have hmore : n < components (t ++ dot :: r) := by
      rw [components_append hne, hcomp t hne]
      omega
    rw [if_neg (by omega), hcomp t hne]
    constructor
    · rintro ⟨-, h⟩
      omega
    · intro h
      omega

end

/-! ## Ancestor selection -/

/-- For every parent, every valid descendant and every generation the call
selects the ancestor exactly when it counts right. -/
theorem selects_ancestor_iff (parent : Bytes) {descendant : Bytes} (hd : nr_reg_is_valid descendant = .ok)
    (generation : UInt32) : SelectsAncestor parent descendant generation ↔ CountsRight parent descendant generation := by
  obtain ⟨hlen, hhead, -, -⟩ := is_valid_iff.1 hd
  by_cases hstart : startsWith parent descendant = true
  · obtain ⟨p, rest, rfl, hsame⟩ := startsWith_iff.1 hstart
    obtain ⟨t, hmake, hcase⟩ := make_child_eq hsame hlen generation
    have hselects : SelectsAncestor parent (p ++ rest) generation ↔
        Descends parent (p ++ rest) ∧ CutAt (components parent + generation.toNat) (p ++ t) (p ++ rest) := by
      simp [SelectsAncestor, hmake]
    rw [hselects, descends_iff hsame, CountsRight, ← hsame.components]
    by_cases hroot : parent = []
    · obtain rfl := hsame.nil_iff.2 hroot
      rw [if_pos hroot, ← cut_at_root hhead hcase]
      simp [hroot, components]
    · have hp : p ≠ [] := mt hsame.nil_iff.1 hroot
      have hnext : (p ++ rest)[parent.length]? = rest.head? := by
        rw [← hsame.length, List.getElem?_append_right (Nat.le_refl _), Nat.sub_self, List.head?_eq_getElem?]
      rw [if_neg hroot, hnext]
      simp only [hroot, false_or, hstart, true_and]
      constructor
      · rintro ⟨hdot, -⟩ ⟨c, hc, hne⟩
        rcases hdot with rfl | hdot
        · cases hc
        · rw [hc] at hdot
          exact hne (Option.some.inj hdot)
      · intro hno
        have hdot : rest = [] ∨ rest.head? = some dot := by
          cases rest with
          | nil => exact .inl rfl
          | cons c rest =>
            right
            by_contra hne
            exact hno ⟨c, rfl, fun hc => hne (by rw [hc]; rfl)⟩
        exact ⟨hdot, cut_below hp hdot hcase⟩
  · -- the names differ within the parent's length
    have hnot : ¬ Descends parent descendant := by
      rintro (rfl | ⟨p, hsame, rfl | ⟨r, rfl⟩⟩)
      · exact hstart (startsWith_iff.2 ⟨[], descendant, rfl, rfl⟩)
      · exact hstart (startsWith_iff.2 ⟨descendant, [], by simp, hsame⟩)
      · exact hstart (startsWith_iff.2 ⟨p, dot :: r, rfl, hsame⟩)
    have hroot : parent ≠ [] := fun h => hnot (.inl h)
    have herror : NR_reg_make_child_registry parent descendant generation = .error .R_BAD_ARGS := if_pos hstart
    simp [SelectsAncestor, CountsRight, herror, hnot, hroot, hstart]

/-- The parent's letters may differ in case. -/
theorem selects_ancestor_foo : SelectsAncestor (str "foo") (str "FOO.bar.baz") 1 := by
  have hnext : (str "FOO.bar.baz")[(str "foo").length]? = some dot := by decide
  refine (selects_ancestor_iff (str "foo") (show nr_reg_is_valid (str "FOO.bar.baz") = .ok by decide) 1).2 ?_
  rw [CountsRight, if_neg (by decide)]
  rintro ⟨-, c, hc, hne⟩
  rw [hnext] at hc
  exact hne (Option.some.inj hc).symm

/-- `foobar` passes for a descendant of `foo`, and below the root generation 0
of `a.b` is `a`, which has a component more than the root. -/
theorem selects_no_ancestor :
    NR_reg_make_child_registry (str "foo") (str "foobar") 0 = .ok (str "foobar") ∧
      ¬ Descends (str "foo") (str "foobar") ∧ ¬ SelectsAncestor (str "foo") (str "foobar") 0 ∧
      NR_reg_make_child_registry [] (str "a.b") 0 = .ok (str "a") ∧
      ¬ CutAt (components []) (str "a") (str "a.b") ∧ ¬ SelectsAncestor [] (str "a.b") 0 := by
  have hfoo : NR_reg_make_child_registry (str "foo") (str "foobar") 0 = .ok (str "foobar") := by decide
  have hroot : NR_reg_make_child_registry [] (str "a.b") 0 = .ok (str "a") := by decide
  have hnot : ¬ Descends (str "foo") (str "foobar") := by
    have hsame : SameLetters (str "foo") (str "foo") := rfl
    rw [show str "foobar" = str "foo" ++ str "bar" by decide, descends_iff hsame]
    decide
  have hcut : ¬ CutAt (components []) (str "a") (str "a.b") := by
    rw [CutAt]
    decide
  refine ⟨hfoo, hnot, fun h => hnot (h.1.1 ⟨_, hfoo⟩), hroot, hcut, fun h => hcut (h.2 _ hroot)⟩

end Nrappkit.Registry
