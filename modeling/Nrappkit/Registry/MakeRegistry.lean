import Nrappkit.Lib.Buffer
import Nrappkit.Lib.Mem
import Nrappkit.Registry.Entries
/-!
# Names put together in memory

`NR_reg_make_registry` on the memory it runs in: a parent and an output array of
128 bytes each, which are the same array when the function is called in place.
`Registry.NR_reg_make_registry` says what name comes out; here are the bytes on
the way, also those of the calls that fail.
-/
open Lib

namespace Nrappkit.Registry.InMemory

/-! ## The functions -/

/-- The string in the array of a name at an address. -/
def stringAt (m : Mem) (a : Int) : Option Bytes := readString (m.read a NR_REG_MAX_NR_REGISTRY_LEN)

def nr_reg_is_valid (m : Mem) (name : Int) : Status :=
  match stringAt m name with
  | none => .R_BAD_ARGS
  | some name => Registry.nr_reg_is_valid name

/-- The loop over the child: each byte is stored and then looked at where it
was stored. -/
def copy_child : Mem → Int → Bytes → Mem
  | m, _, [] => m
  | m, c, b :: child =>
    let m := m.write c [b]
    let m := if isspace (m c) || m c = dot || m c = 47 || !isprint (m c) then m.write c [95] else m
    copy_child m (c + 1) child

/-- Requires parent already in legal form. -/
def NR_reg_make_registry (m : Mem) (parent : Int) (child : Bytes) (out : Int) : Status × Mem :=
  match stringAt m parent with
  | none => (.R_BAD_ARGS, m)
  | some name =>
    if Registry.nr_reg_is_valid name ≠ .ok then (Registry.nr_reg_is_valid name, m)
    else if child.head? = some dot then (.R_BAD_ARGS, m)
    else if name.length + child.length + 2 > NR_REG_MAX_NR_REGISTRY_LEN then (.R_BAD_ARGS, m)
    else
      let m := if out ≠ parent then m.write out (name ++ [0]) else m
      let c := out + name.length
      let (m, c) := if m parent ≠ 0 then (m.write c [dot], c + 1) else (m, c)
      let m := copy_child m c child
      if child = [] ∨ child.getLast? = some dot then (.R_BAD_ARGS, m)
      else (.ok, m.write (c + child.length) [0])

/-- Two arrays of names that do not overlap. -/
def Apart (a b : Int) : Prop := a + NR_REG_MAX_NR_REGISTRY_LEN ≤ b ∨ b + NR_REG_MAX_NR_REGISTRY_LEN ≤ a

instance (a b : Int) : Decidable (Apart a b) := inferInstanceAs (Decidable (_ ∨ _))

/-! ## What is written -/

section
variable {m : Mem} {parent out : Int} {name : Bytes}

theorem stringAt_some (h : stringAt m parent = some name) :
    0 ∉ name ∧ ∃ rest, m.read parent NR_REG_MAX_NR_REGISTRY_LEN = name ++ 0 :: rest :=
  readString_eq_some.1 h

theorem string_length (h : stringAt m parent = some name) : name.length < NR_REG_MAX_NR_REGISTRY_LEN := by
  obtain ⟨-, rest, hrest⟩ := stringAt_some h
  have hlen := congrArg List.length hrest
  simp only [Mem.read, List.length_map, List.length_range, List.length_append, List.length_cons] at hlen
  omega

/-- The bytes of the string. -/
theorem read_string (h : stringAt m parent = some name) : m.read parent (name.length + 1) = name ++ [0] := by
  obtain ⟨-, rest, hrest⟩ := stringAt_some h
  obtain ⟨k, hk⟩ := Nat.exists_eq_add_of_le (string_length h)
  rw [hk, Mem.read_append, List.append_cons] at hrest
  exact List.append_inj_left hrest (by simp [Mem.read])

/-- The test of the first byte is a test for the root. -/
theorem first_byte (h : stringAt m parent = some name) : m parent = 0 ↔ name = [] := by
  have hread := read_string h
  cases name with
  | nil =>
    have h0 : m parent = 0 := by simpa [Mem.read] using hread
    simp [h0]
  | cons b name =>
    have hb : m parent = b := by
      rw [List.length_cons, Nat.add_comm, Mem.read_append, List.cons_append] at hread
      simp only [Mem.read] at hread
      simpa using (List.cons.inj hread).1
    have hne : b ≠ 0 := by
      rintro rfl
      exact (stringAt_some h).1 (by simp)
    simp [hb, hne]

/-- The loop stores the bytes of the component. -/
theorem copy_child_eq (c : Int) (child : Bytes) : copy_child m c child = m.write c (child.map childByte) := by
  induction child generalizing m c with
  | nil =>
    funext x
    exact (Mem.write_outside (by simp only [List.map_nil, List.length_nil]; omega)).symm
  | cons b child ih =>
    have hb : (m.write c [b]) c = b := by simp [Mem.write]
    -- The underscore goes where the byte was.
    have hover : ∀ b', (m.write c [b]).write c [b'] = m.write c [b'] := by
      intro b'
      have h : (m.write c ([] ++ [b])).write (c + ([] : Bytes).length) [b'] = m.write c ([] ++ [b']) :=
        Mem.write_write (by simp)
      simpa using h
    have hgo : ∀ b', (m.write c [b']).write (c + 1) (child.map childByte) = m.write c (b' :: child.map childByte) := by
      intro b'
      have h : (m.write c ([b'] ++ [])).write (c + [b'].length) (child.map childByte) =
        m.write c ([b'] ++ child.map childByte) := Mem.write_write (by simp)
      simpa using h
    rw [copy_child, ih, hb, hover, List.map_cons, childByte]
    split
    · exact hgo 95
    · exact hgo b

/-- What stands before the component: the parent and a dot, or nothing for the
root. -/
def stem (name : Bytes) : Bytes := if name = [] then [] else name ++ [dot]

/-- What is left of the terminator of the copied parent. -/
def residue (name child : Bytes) : Bytes := if name = [] ∧ child = [] then [0] else []

/-- Both modes leave the parent at the output, and then the dot. -/
theorem stem_written (hp : stringAt m parent = some name) (hout : out = parent ∨ Apart parent out) :
    (let m := if out ≠ parent then m.write out (name ++ [0]) else m
     let c := out + name.length
     if m parent ≠ 0 then (m.write c [dot], c + 1) else (m, c)) =
      (m.write out (stem name ++ if name = [] then [0] else []), out + (stem name).length) := by
  have hlen := string_length hp
  -- Copying the parent onto itself would change nothing.
  have hcopy : (if out ≠ parent then m.write out (name ++ [0]) else m) = m.write out (name ++ [0]) := by
    split
    · rfl
    · rename_i heq
      obtain rfl := not_not.1 heq
      have hsame := Mem.write_read (m := m) (a := out) (name.length + 1)
      rw [read_string hp] at hsame
      exact hsame.symm
  have hfirst : m.write out (name ++ [0]) parent = 0 ↔ name = [] := by
    rw [← first_byte hp]
    by_cases heq : out = parent
    · rw [← hcopy, if_neg (not_not.2 heq)]
    · have hapart := hout.resolve_left heq
      unfold Apart at hapart
      rw [Mem.write_outside]
      simp only [List.length_append, List.length_singleton]
      omega
  dsimp only
  rw [hcopy]
  by_cases hn : name = []
  · rw [if_neg (not_not.2 (hfirst.2 hn))]
    simp [hn, stem]
  · rw [if_pos (mt hfirst.1 hn), stem, if_neg hn, if_neg hn, Mem.write_write (by simp), List.append_nil, List.length_append,
      List.length_singleton, Int.natCast_add, Int.add_assoc]
    rfl

/-- A call that is not refused at once writes the name, and its terminator if
it is not refused later. -/
theorem make_registry_run {child : Bytes} (hp : stringAt m parent = some name) (hv : Registry.nr_reg_is_valid name = .ok)
    (hout : out = parent ∨ Apart parent out) (hhead : child.head? ≠ some dot)
    (hlen : name.length + child.length + 2 ≤ NR_REG_MAX_NR_REGISTRY_LEN) :
    NR_reg_make_registry m parent child out =
      if child = [] ∨ child.getLast? = some dot then
        (.R_BAD_ARGS, m.write out (stem name ++ child.map childByte ++ residue name child))
      else (.ok, m.write out (stem name ++ child.map childByte ++ [0])) := by
  have hstem := stem_written hp hout
  have hloop : copy_child (m.write out (stem name ++ if name = [] then [0] else [])) (out + (stem name).length) child =
      m.write out (stem name ++ child.map childByte ++ residue name child) := by
    rw [copy_child_eq]
    -- The first byte that is stored replaces the terminator, if one is stored.
    by_cases hboth : name = [] ∧ child = []
    · obtain ⟨rfl, rfl⟩ := hboth
      funext x
      exact Mem.write_outside (by simp only [List.map_nil, List.length_nil]; omega)
    · rw [residue, if_neg hboth, List.append_nil]
      apply Mem.write_write
      rw [List.length_map]
      split
      · rename_i hn
        have hpos : 0 < child.length := List.length_pos_iff.2 fun hc => hboth ⟨hn, hc⟩
        simpa [Nat.one_le_iff_ne_zero] using hpos.ne'
      · simp
  unfold NR_reg_make_registry
  rw [hp]
  dsimp only at hstem ⊢
  rw [if_neg (not_not.2 hv), if_neg hhead, if_neg (Nat.not_lt.2 hlen), hstem]
  dsimp only
  rw [hloop]
  split
  · rfl
  · rename_i hend
    rw [not_or] at hend
    have hleft : residue name child = [] := if_neg fun h => hend.1 h.2
    have hnext : out + (stem name).length + child.length = out + (stem name ++ child.map childByte).length := by
      rw [List.length_append, List.length_map, Int.natCast_add, Int.add_assoc]
    rw [hleft, hnext, Mem.write_write (by simp)]

/-- The function returns what `Registry.NR_reg_make_registry` returns, and
writes the name that one returns. -/
theorem make_registry_refines (hp : stringAt m parent = some name) (hout : out = parent ∨ Apart parent out)
    (child : Bytes) :
    match Registry.NR_reg_make_registry name child with
    | .ok made => NR_reg_make_registry m parent child out = (.ok, m.write out (made ++ [0]))
    | .error r => (NR_reg_make_registry m parent child out).1 = r := by
  by_cases hv : Registry.nr_reg_is_valid name = .ok
  · by_cases hhead : child.head? = some dot
    · simp [Registry.NR_reg_make_registry, NR_reg_make_registry, hp, hv, hhead]
    · by_cases hlen : name.length + child.length + 2 > NR_REG_MAX_NR_REGISTRY_LEN
      · simp [Registry.NR_reg_make_registry, NR_reg_make_registry, hp, hv, hhead, hlen]
      · rw [make_registry_run hp hv hout hhead (Nat.not_lt.1 hlen)]
        by_cases hend : child = [] ∨ child.getLast? = some dot
        · simp [Registry.NR_reg_make_registry, hv, hhead, hlen, hend]
        · simp [Registry.NR_reg_make_registry, hv, hhead, hlen, hend, stem]
  · simp [Registry.NR_reg_make_registry, NR_reg_make_registry, hp, hv]

/-- The arguments are accepted. -/
def Fits (name child : Bytes) : Prop :=
  child ≠ [] ∧ child.head? ≠ some dot ∧ child.getLast? ≠ some dot ∧
    name.length + child.length + 2 ≤ NR_REG_MAX_NR_REGISTRY_LEN

instance (name child : Bytes) : Decidable (Fits name child) := inferInstanceAs (Decidable (_ ∧ _))

theorem make_eq (hv : Registry.nr_reg_is_valid name = .ok) (child : Bytes) :
    Registry.NR_reg_make_registry name child =
      if Fits name child then .ok (stem name ++ child.map childByte) else .error .R_BAD_ARGS := by
  rw [Registry.NR_reg_make_registry, if_neg (not_not.2 hv)]
  by_cases hhead : child.head? = some dot
  · simp [Fits, hhead]
  · by_cases hlen : name.length + child.length + 2 > NR_REG_MAX_NR_REGISTRY_LEN
    · simp [Fits, hhead, hlen, Nat.not_le.2 hlen]
    · by_cases hnil : child = []
      · simp [Fits, hnil]
      · by_cases hlast : child.getLast? = some dot
        · simp [Fits, hlast]
        · simp [Fits, hhead, hlen, hnil, hlast, Nat.not_lt.1 hlen, stem]

theorem valid_at (hp : stringAt m parent = some name) : nr_reg_is_valid m parent = Registry.nr_reg_is_valid name := by
  rw [nr_reg_is_valid, hp]

/-- A valid parent: the call succeeds exactly when the arguments fit, and then
the name is at the output. -/
theorem make_registry_eq (hp : stringAt m parent = some name) (hv : nr_reg_is_valid m parent = .ok)
    (hout : out = parent ∨ Apart parent out) (child : Bytes) :
    if Fits name child then
      NR_reg_make_registry m parent child out = (.ok, m.write out (stem name ++ child.map childByte ++ [0]))
    else (NR_reg_make_registry m parent child out).1 = .R_BAD_ARGS := by
  rw [valid_at hp] at hv
  have href := make_registry_refines hp hout child
  rw [make_eq hv] at href
  split
  · rw [if_pos ‹_›] at href
    exact href
  · rw [if_neg ‹_›] at href
    exact href

theorem make_registry_ok_iff (hp : stringAt m parent = some name) (hv : nr_reg_is_valid m parent = .ok)
    (hout : out = parent ∨ Apart parent out) (child : Bytes) :
    (NR_reg_make_registry m parent child out).1 = .ok ↔ Fits name child := by
  have heq := make_registry_eq hp hv hout child
  split at heq
  · simp [*]
  · simp [*]

/-- An array apart from what was written keeps its string. -/
theorem stringAt_apart {bs : Bytes} (hout : Apart parent out) (hlen : bs.length ≤ NR_REG_MAX_NR_REGISTRY_LEN) :
    stringAt (m.write out bs) parent = stringAt m parent := by
  unfold Apart at hout
  rw [stringAt, stringAt, Mem.read_write_apart (by omega)]

/-- A terminated name that was written into an array is the string in it. -/
theorem stringAt_write {made : Bytes} (h0 : 0 ∉ made) (hlen : made.length < NR_REG_MAX_NR_REGISTRY_LEN) :
    stringAt (m.write out (made ++ [0])) out = some made := by
  rw [stringAt, Mem.read_write_append (by simpa using Nat.succ_le_of_lt hlen), List.append_assoc]
  exact readString_append h0

end

/-! ## The name that is made -/

/-- `x` is the string `child` made fit for a component. -/
structure Component (child x : Bytes) : Prop where
  length : x.length = child.length
  no_dot : dot ∉ x
  kept : ∀ (i : Nat) c, child[i]? = some c → legalByte c = true → c ≠ dot → x[i]? = some c

theorem childByte_kept {c : UInt8} (hl : legalByte c = true) (hd : c ≠ dot) : childByte c = c := by
  simp only [legalByte, Bool.and_eq_true, Bool.not_eq_true', bne_iff_ne] at hl
  simp [childByte, hl, hd]

theorem component_map (child : Bytes) : Component child (child.map childByte) where
  length := List.length_map ..
  no_dot := by
    intro hd
    obtain ⟨c, -, hc⟩ := List.mem_map.1 hd
    exact (childByte_legal c).2 hc
  kept i c hi hl hd := by
    rw [List.getElem?_map, hi, Option.map_some, childByte_kept hl hd]

theorem childByte_idem (c : UInt8) : childByte (childByte c) = childByte c :=
  childByte_kept (childByte_legal c).1 (childByte_legal c).2

theorem stem_append (name x : Bytes) : stem name ++ x = if name = [] then x else name ++ dot :: x := by
  by_cases hn : name = [] <;> simp [stem, hn]

/-- The name is cut back to its parent. -/
theorem beforeLastDot_stem {name x : Bytes} (hx : dot ∉ x) :
    beforeLastDot (stem name ++ x) = if name = [] then none else some name := by
  rw [stem_append]
  split
  · exact beforeLastDot_none.2 hx
  · exact beforeLastDot_some.2 ⟨x, rfl, hx⟩

/-- The component is accepted where the child was. -/
theorem Fits.component {name child : Bytes} (h : Fits name child) : Fits name (child.map childByte) := by
  obtain ⟨hne, -, -, hlen⟩ := h
  have hno := (component_map child).no_dot
  refine ⟨by simpa using hne, fun hd => ?_, fun hd => ?_, by simpa using hlen⟩
  · exact hno (List.mem_of_head? hd)
  · exact hno (List.mem_of_getLast? hd)

theorem Fits.valid {name child : Bytes} (h : Fits name child) (hv : Registry.nr_reg_is_valid name = .ok) :
    Registry.nr_reg_is_valid (stem name ++ child.map childByte) = .ok := by
  have hmake : nr_c2ru_make_registry name child = .ok (stem name ++ child.map childByte) := by
    rw [nr_c2ru_make_registry, make_eq hv, if_pos h]
  exact (make_registry_valid hmake).2

/-- The name is the string at the output. -/
theorem Fits.string {m : Mem} {out : Int} {name child : Bytes} (h : Fits name child)
    (hv : Registry.nr_reg_is_valid name = .ok) :
    stringAt (m.write out (stem name ++ child.map childByte ++ [0])) out = some (stem name ++ child.map childByte) :=
  stringAt_write (valid_no_zero (h.valid hv)) (is_valid_iff.1 (h.valid hv)).1

/-- For a valid parent and any child, with an output apart from the parent: the
call returns 0 exactly when the child is not empty, neither begins nor ends
with a dot and fits. Then the output holds a terminated valid name, the child's
component below the parent, and the component gives the same name again. -/
theorem make_registry_sound {m : Mem} {parent out : Int} {name : Bytes} (hp : stringAt m parent = some name)
    (hv : nr_reg_is_valid m parent = .ok) (hout : Apart parent out) (child : Bytes) :
    ((NR_reg_make_registry m parent child out).1 = .ok ↔
      child ≠ [] ∧ child.head? ≠ some dot ∧ child.getLast? ≠ some dot ∧
        name.length + child.length + 2 ≤ NR_REG_MAX_NR_REGISTRY_LEN) ∧
    ∀ m', NR_reg_make_registry m parent child out = (.ok, m') →
      stringAt m' parent = some name ∧ nr_reg_is_valid m' out = .ok ∧
      ∃ x, Component child x ∧ stringAt m' out = some (if name = [] then x else name ++ dot :: x) ∧
        (stringAt m' out).bind beforeLastDot = (if name = [] then none else some name) ∧
        ∀ m₁, stringAt m₁ parent = some name →
          ∃ m₂, NR_reg_make_registry m₁ parent x out = (.ok, m₂) ∧ stringAt m₂ out = stringAt m' out := by
  refine ⟨make_registry_ok_iff hp hv (.inr hout) child, fun m' hm' => ?_⟩
  have hfits : Fits name child := (make_registry_ok_iff hp hv (.inr hout) child).1 (by rw [hm'])
  have hvname : Registry.nr_reg_is_valid name = .ok := by rwa [valid_at hp] at hv
  have hvalid := hfits.valid hvname
  have hroom : (stem name ++ child.map childByte ++ [0]).length ≤ NR_REG_MAX_NR_REGISTRY_LEN := by
    rw [List.length_append, List.length_singleton]
    exact (is_valid_iff.1 hvalid).1
  -- What a call with arguments that fit leaves in the two arrays.
  have hmade : ∀ m₁ x, stringAt m₁ parent = some name → x.map childByte = child.map childByte → Fits name x →
      ∃ m₂, NR_reg_make_registry m₁ parent x out = (.ok, m₂) ∧ stringAt m₂ parent = some name ∧
        stringAt m₂ out = some (stem name ++ child.map childByte) := by
    intro m₁ x hp₁ hx hfx
    have heq := make_registry_eq hp₁ (by rwa [valid_at hp₁, ← valid_at hp]) (.inr hout) x
    rw [if_pos hfx, hx] at heq
    exact ⟨_, heq, (stringAt_apart hout hroom).trans hp₁, hfits.string hvname⟩
  obtain ⟨m₂, heq, hparent, hstring⟩ := hmade m child hp rfl hfits
  rw [hm', Prod.mk.injEq] at heq
  obtain ⟨-, rfl⟩ := heq
  refine ⟨hparent, by rw [valid_at hstring, hvalid], child.map childByte, component_map child, ?_, ?_, fun m₁ hp₁ => ?_⟩
  · rw [hstring, stem_append]
  · rw [hstring, Option.bind_some, beforeLastDot_stem (component_map child).no_dot]
  · rw [hstring]
    obtain ⟨m₂, heq₂, -, hstring₂⟩ := hmade m₁ (child.map childByte) hp₁ (by simp [childByte_idem]) hfits.component
    exact ⟨m₂, heq₂, hstring₂⟩

/-- A memory of zeros but for the string `a` at address 0. -/
def memoryA : Mem := Mem.write (fun _ => 0) 0 (str "a")

theorem make_registry_sound_b_c :
    ∃ m', NR_reg_make_registry memoryA 0 (str "b c") 128 = (.ok, m') ∧ nr_reg_is_valid m' 128 = .ok ∧
      ∃ x, Component (str "b c") x ∧ stringAt m' 128 = some (str "a." ++ x) := by
  obtain ⟨hiff, hmade⟩ := make_registry_sound (m := memoryA) (show stringAt memoryA 0 = some (str "a") by decide +kernel)
    (by decide +kernel) (show Apart 0 128 by decide) (str "b c")
  have hok := hiff.2 (by decide)
  obtain ⟨-, hv, x, hx, hstring, -⟩ := hmade (NR_reg_make_registry memoryA 0 (str "b c") 128).2 (Prod.ext hok rfl)
  exact ⟨_, Prod.ext hok rfl, hv, x, hx, hstring⟩

/-! ## In place -/

/-- A call with the parent as its output returns what a call with another
output returns, leaves the same name when it succeeds, and leaves the parent's
name when it fails. -/
def InPlaceAgrees (m : Mem) (parent out : Int) (child : Bytes) : Prop :=
  (NR_reg_make_registry m parent child parent).1 = (NR_reg_make_registry m parent child out).1 ∧
  ((NR_reg_make_registry m parent child parent).1 = .ok →
    stringAt (NR_reg_make_registry m parent child parent).2 parent =
      stringAt (NR_reg_make_registry m parent child out).2 out) ∧
  ((NR_reg_make_registry m parent child parent).1 ≠ .ok →
    stringAt (NR_reg_make_registry m parent child parent).2 parent = stringAt m parent)

/-- The child is refused only when the name has been written: it is empty below
a parent that is not the root, or it ends with a dot; and it neither begins
with one nor is too long. -/
def RefusedLate (name child : Bytes) : Prop :=
  child.head? ≠ some dot ∧ name.length + child.length + 2 ≤ NR_REG_MAX_NR_REGISTRY_LEN ∧
    (child = [] ∧ name ≠ [] ∨ child.getLast? = some dot)

/-- An array that begins with bytes that are not a terminator holds a string
at least as long as these. -/
theorem stringAt_begun {m : Mem} {out : Int} {bs name : Bytes} (h0 : 0 ∉ bs)
    (hlen : bs.length ≤ NR_REG_MAX_NR_REGISTRY_LEN) (hlt : name.length < bs.length) :
    stringAt (m.write out bs) out ≠ some name := by
  rw [stringAt, Mem.read_write_append hlen, readString_begun h0]
  intro h
  obtain ⟨s, -, hs⟩ := Option.map_eq_some_iff.1 h
  have hle := congrArg List.length hs
  rw [List.length_append] at hle
  omega

theorem zero_notMem_made {name : Bytes} (h0 : 0 ∉ name) (child : Bytes) : 0 ∉ stem name ++ child.map childByte := by
  have hd : (0 : UInt8) ≠ dot := by decide
  intro h
  rcases List.mem_append.1 h with h | h
  · by_cases hn : name = [] <;> simp [stem, hn, h0, hd] at h
  · obtain ⟨c, -, hc⟩ := List.mem_map.1 h
    have hlegal := (childByte_legal c).1
    rw [hc] at hlegal
    revert hlegal
    decide

/-- What a call in place that fails leaves. -/
theorem in_place_failure {m : Mem} {parent : Int} {name child : Bytes} (hp : stringAt m parent = some name)
    (hv : Registry.nr_reg_is_valid name = .ok) (hfits : ¬ Fits name child) :
    stringAt (NR_reg_make_registry m parent child parent).2 parent = some name ↔ ¬ RefusedLate name child := by
  by_cases hhead : child.head? = some dot
  · simp [NR_reg_make_registry, hp, hv, hhead, RefusedLate]
  by_cases hlen : name.length + child.length + 2 > NR_REG_MAX_NR_REGISTRY_LEN
  · simp [NR_reg_make_registry, hp, hv, hhead, hlen, RefusedLate, Nat.not_le.2 hlen]
  have hlen := Nat.not_lt.1 hlen
  have hend : child = [] ∨ child.getLast? = some dot := by
    by_contra hno
    obtain ⟨hnil, hlast⟩ := not_or.1 hno
    exact hfits ⟨hnil, hhead, hlast, hlen⟩
  rw [make_registry_run hp hv (.inl rfl) hhead hlen, if_pos hend]
  dsimp only
  by_cases hboth : name = [] ∧ child = []
  · -- the terminator is written over itself
    obtain ⟨rfl, rfl⟩ := hboth
    have hstring : stringAt (m.write parent ([] ++ [0])) parent = some [] := stringAt_write (by simp) (by decide)
    simp [stem, residue, RefusedLate, ← hstring]
  · -- a byte other than zero stands where the terminator was
    have hlate : RefusedLate name child := by
      refine ⟨hhead, hlen, hend.imp (fun hnil => ⟨hnil, fun hn => hboth ⟨hn, hnil⟩⟩) id⟩
    have hlonger : name.length < (stem name ++ child.map childByte).length := by
      by_cases hn : name = []
      · have hpos : 0 < child.length := List.length_pos_iff.2 fun hc => hboth ⟨hn, hc⟩
        simpa [stem, hn] using hpos
      · simp only [stem, if_neg hn, List.length_append, List.length_singleton]
        omega
    have hroom : (stem name ++ child.map childByte).length ≤ NR_REG_MAX_NR_REGISTRY_LEN := by
      by_cases hn : name = [] <;> simp [stem, hn] at hlen ⊢ <;> omega
    rw [residue, if_neg hboth, List.append_nil]
    exact iff_of_false (stringAt_begun (zero_notMem_made (stringAt_some hp).1 child) hroom hlonger) (not_not.2 hlate)

/-- For a valid parent and any child, and any other array for the output: the
two modes agree exactly when the child is not refused late. -/
theorem in_place_agrees_iff {m : Mem} {parent out : Int} {name : Bytes} (hp : stringAt m parent = some name)
    (hv : nr_reg_is_valid m parent = .ok) (hout : Apart parent out) (child : Bytes) :
    InPlaceAgrees m parent out child ↔ ¬ RefusedLate name child := by
  have hin := make_registry_eq hp hv (.inl rfl) child
  have hsep := make_registry_eq hp hv (.inr hout) child
  rw [valid_at hp] at hv
  unfold InPlaceAgrees
  by_cases hfits : Fits name child
  · rw [if_pos hfits] at hin hsep
    have hlate : ¬ RefusedLate name child := by
      rintro ⟨-, -, ⟨hnil, -⟩ | hlast⟩
      · exact hfits.1 hnil
      · exact hfits.2.2.1 hlast
    rw [hin, hsep, hfits.string hv, hfits.string hv]
    simp [hlate]
  · rw [if_neg hfits] at hin hsep
    rw [hin, hsep, hp, in_place_failure hp hv hfits]
    simp

/-- Both modes make `a.b_c`. -/
theorem in_place_agrees_b_c : InPlaceAgrees memoryA 0 128 (str "b c") :=
  (in_place_agrees_iff (show stringAt memoryA 0 = some (str "a") by decide +kernel) (by decide +kernel)
    (show Apart 0 128 by decide) (str "b c")).2 fun h => absurd h.2.2 (by decide)

/-- In place, the refused child `b.` has turned `a` into `a.b_`; the empty
child has turned it into `a.`. -/
theorem in_place_overwritten :
    (NR_reg_make_registry memoryA 0 (str "b.") 0).1 = .R_BAD_ARGS ∧
      stringAt (NR_reg_make_registry memoryA 0 (str "b.") 0).2 0 = some (str "a.b_") ∧
      stringAt (NR_reg_make_registry memoryA 0 [] 0).2 0 = some (str "a.") ∧
      ¬ InPlaceAgrees memoryA 0 128 (str "b.") ∧ ¬ InPlaceAgrees memoryA 0 128 [] := by
  have hfail : (NR_reg_make_registry memoryA 0 (str "b.") 0).1 = .R_BAD_ARGS ∧
      (NR_reg_make_registry memoryA 0 [] 0).1 = .R_BAD_ARGS := by decide +kernel
  have hstring : stringAt (NR_reg_make_registry memoryA 0 (str "b.") 0).2 0 = some (str "a.b_") ∧
      stringAt (NR_reg_make_registry memoryA 0 [] 0).2 0 = some (str "a.") := by decide +kernel
  have hbefore : stringAt memoryA 0 = some (str "a") := by decide +kernel
  refine ⟨hfail.1, hstring.1, hstring.2, fun h => ?_, fun h => ?_⟩
  · have hsame := h.2.2 (by simp [hfail.1])
    rw [hstring.1, hbefore] at hsame
    exact absurd hsame (by decide)
  · have hsame := h.2.2 (by simp [hfail.2])
    rw [hstring.2, hbefore] at hsame
    exact absurd hsame (by decide)

end Nrappkit.Registry.InMemory
