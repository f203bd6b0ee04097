import Nrappkit.Control.Values
/-!
# What export prints

`nrregctl_dump` prints one line for each leaf below a name, and the shell makes
one command of it. The exception is `Data`, whose text is broken into lines.
-/
open Lib Nrappkit.Registry Nrappkit.Assoc

namespace Nrappkit.Control

/-! ## Leaves -/

/-- A name is stored with a value, and it is no registry. -/
structure Leaf (s : Reg) (n : Bytes) (v : Value) : Prop where
  map : s.map n = some (some v)
  type : v ≠ .registry

/-- The text printed for a value, with its newline. -/
def valueText (env : Env) : Value → Option Bytes
  | .scalar v => some (scalarText env true v ++ [10])
  | .array false content => some (bytesText content)
  | .array true content =>
    if strlen content = some (content.length - 1) then (shellWord content.dropLast).map (· ++ [10]) else none
  | .registry => none

/-- The line, or the lines, for a leaf. -/
def lineOf (env : Env) (v : Value) (child : Bytes) : Option Bytes :=
  (shellWord child).bind fun word => (valueText env v).map (lineStart (nr_reg_type_name v.type) word ++ ·)

section
variable {env : Env} {s : Reg} {n : Bytes} {v : Value}

theorem get_type_stored (h : RInv s) (hm : s.map n = some (some v)) :
    NR_reg_get_type s n = some (.ok (nr_reg_type_name v.type)) := by
  obtain ⟨p, node, hp, hn, rfl, hv, -⟩ := h.node_of_map hm
  unfold NR_reg_get_type
  rw [if_neg (by simp [hv]), h.fetch_ptr, hp]
  simp [hn, Node.value_type]

end

/-! ## The list of children -/

/-- The names below a name can be copied with their terminators. -/
def Short (s : Reg) (W : Bytes → Prop) : Prop := ∀ n, W n → s.map n ≠ none → n.length < NR_REG_MAX_NR_REGISTRY_LEN - 1

section
variable {s : Reg} {parent : Bytes} {kids : List Bytes}

end

/-! ## The lines -/

/-- The line of a stored leaf. -/
def lineAt (env : Env) (s : Reg) (n : Bytes) : Option Bytes :=
  match s.map n with
  | some (some v) => lineOf env v n
  | _ => none

/-- The text is the lines of the leaves that `W` holds of, each printed once. -/
structure Printed (env : Env) (s : Reg) (W : Bytes → Prop) (text : Bytes) (leaves lines : List Bytes) : Prop where
  text : text = lines.flatten
  nodup : leaves.Nodup
  mem : ∀ n, n ∈ leaves ↔ W n ∧ ∃ v, Leaf s n v
  short : Short s W
  lines : List.Forall₂ (fun n line => lineAt env s n = some line) leaves lines

/-- Below a name, and not the name itself. -/
def Below (p n : Bytes) : Prop := covers p n = true ∧ n ≠ p

section
variable {env : Env} {s : Reg} {W W' : Bytes → Prop} {text text' : Bytes} {leaves leaves' lines lines' : List Bytes}

theorem Leaf.stored {n : Bytes} {v : Value} (hl : Leaf s n v) : s.map n ≠ none := by simp [hl.map]

namespace Printed

theorem congr (h : Printed env s W text leaves lines) (hW : ∀ n, s.map n ≠ none → (W n ↔ W' n)) :
    Printed env s W' text leaves lines := by
  refine ⟨h.text, h.nodup, fun n => (h.mem n).trans ⟨?_, ?_⟩, fun n hn hst => h.short n ((hW n hst).2 hn) hst, h.lines⟩
  · rintro ⟨hn, v, hl⟩
    exact ⟨(hW n hl.stored).1 hn, v, hl⟩
  · rintro ⟨hn, v, hl⟩
    exact ⟨(hW n hl.stored).2 hn, v, hl⟩

theorem nil (hW : ∀ n, W n → s.map n = none) : Printed env s W [] [] [] := by
  refine ⟨rfl, .nil, fun n => ⟨(fun hn => by cases hn), ?_⟩, fun n hn hst => absurd (hW n hn) hst, .nil⟩
  rintro ⟨hn, v, hl⟩
  exact absurd (hW n hn) hl.stored

theorem append (h : Printed env s W text leaves lines) (h' : Printed env s W' text' leaves' lines')
    (hdisj : ∀ n, W n → ¬ W' n) :
    Printed env s (fun n => W n ∨ W' n) (text ++ text') (leaves ++ leaves') (lines ++ lines') := by
  refine ⟨by rw [h.text, h'.text, List.flatten_append], ?_, fun n => ?_, fun n hn hst => ?_, ?_⟩
  · refine List.nodup_append.2 ⟨h.nodup, h'.nodup, fun n hn m hm heq => ?_⟩
    subst heq
    exact hdisj n ((h.mem n).1 hn).1 ((h'.mem n).1 hm).1
  · rw [List.mem_append, h.mem, h'.mem, or_and_right]
  · exact hn.elim (fun hn => h.short n hn hst) fun hn => h'.short n hn hst
  · exact List.rel_append h.lines h'.lines

end Printed

end

end Nrappkit.Control
