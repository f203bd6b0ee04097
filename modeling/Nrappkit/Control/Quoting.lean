import Nrappkit.Control.Values
import Nrappkit.Lib.Buffer
/-!
# Quoted strings in memory

`nr_shell_quote_string` on the block it allocates, which is written from its
start on, one byte after the other. `Control.nr_shell_quote_string` says what
text comes out; here are the bytes and the room they take.
-/
open Lib

namespace Nrappkit.Control

/-- A block of `size` bytes, and the bytes between its start and `p`. -/
structure Writer where
  size : Nat
  bytes : Bytes

/-- `*p++ = c` -/
def Writer.put (w : Writer) (c : UInt8) : Option Writer :=
  if w.bytes.length < w.size then some { w with bytes := w.bytes ++ [c] } else none

/-- Several of these, one after the other. -/
def Writer.puts (w : Writer) : Bytes → Option Writer
  | [] => some w
  | c :: cs => (w.put c).bind fun w => w.puts cs

namespace InMemory

/-- The loop over the string. -/
def quote_loop : Bytes → Writer → Option Writer
  | [], p => some p
  | c :: string, p => do
    let p ← if c = 39 then p.puts [39, 34, 39, 34] else some p
    let p ← p.put c
    quote_loop string p

/-- The bytes that were written, with the terminator. -/
def nr_shell_quote_string (string : Bytes) : Option (Except Status Bytes) :=
  let needs_quoting := (string.filter fun c => !nr_isshok c).length
  if needs_quoting = 0 then some (.error .R_REJECTED)
  else if string.length + 4 * needs_quoting + 3 < 2 ^ 31 then do
    let p ← Writer.put ⟨string.length + 4 * needs_quoting + 3, []⟩ 39
    let p ← quote_loop string p
    let p ← p.put 39
    let p ← p.put 0
    some (.ok p.bytes)
  else none

end InMemory

/-- How many bytes a shell needs quotes for. -/
def needsQuoting (s : Bytes) : Nat := (s.filter fun c => !nr_isshok c).length

/-- For a shell the text is the word, whatever words stand before it. -/
def IsWord (text word : Bytes) : Prop := ∀ words, commandsOf .plain none words text = some [words ++ [word]]

/-- What comes out of `nr_shell_quote_string` is the word, quoted and within the
block, or not quoted; and so is what `nrregctl` prints. -/
def Faithful (s : Bytes) : Prop :=
  (∃ text, shellWord s = some text ∧ IsWord text s) ∧
    ∃ r, InMemory.nr_shell_quote_string s = some r ∧
      (∀ block, r = .ok block → block.length ≤ s.length + 4 * needsQuoting s + 3 ∧
        ∃ quoted, readString block = some quoted ∧ IsWord quoted s) ∧
      ∀ e, r = .error e → e = .R_REJECTED ∧ IsWord s s

/-! ## The room -/

theorem put_room {w : Writer} (h : w.bytes.length < w.size) (c : UInt8) :
    w.put c = some { w with bytes := w.bytes ++ [c] } := if_pos h

theorem puts_room {bs : Bytes} {w : Writer} (h : w.bytes.length + bs.length ≤ w.size) :
    w.puts bs = some { w with bytes := w.bytes ++ bs } := by
  induction bs generalizing w with
  | nil => simp [Writer.puts]
  | cons c bs ih =>
    rw [List.length_cons] at h
    rw [Writer.puts, put_room (by omega), Option.bind_some, ih]
    · simp
    · rw [List.length_append, List.length_singleton]
      show w.bytes.length + 1 + bs.length ≤ w.size
      omega

/-- What is written for one byte. -/
theorem quote_step {w : Writer} {c : UInt8} (h : w.bytes.length + (quoteByte c).length ≤ w.size) :
    ((if c = 39 then w.puts [39, 34, 39, 34] else some w).bind fun p => p.put c) =
      some { w with bytes := w.bytes ++ quoteByte c } := by
  by_cases hc : c = 39
  · have hlen : (quoteByte c).length = 5 := by rw [hc]; rfl
    have hfour : w.bytes.length + ([39, 34, 39, 34] : Bytes).length ≤ w.size := by
      show w.bytes.length + 4 ≤ w.size
      omega
    have hlast : (w.bytes ++ [39, 34, 39, 34]).length < w.size := by
      rw [List.length_append]
      show w.bytes.length + 4 < w.size
      omega
    rw [if_pos hc, puts_room hfour, Option.bind_some, put_room hlast]
    simp [quoteByte, hc]
  · have hlen : (quoteByte c).length = 1 := by rw [quoteByte, if_neg hc]; rfl
    rw [if_neg hc, Option.bind_some, put_room (by omega)]
    simp [quoteByte, hc]

theorem quote_loop_room {s : Bytes} {w : Writer} (h : w.bytes.length + (s.flatMap quoteByte).length ≤ w.size) :
    InMemory.quote_loop s w = some { w with bytes := w.bytes ++ s.flatMap quoteByte } := by
  induction s generalizing w with
  | nil => simp [InMemory.quote_loop]
  | cons c s ih =>
    rw [List.flatMap_cons, List.length_append] at h
    have hstep : InMemory.quote_loop (c :: s) w =
        ((if c = 39 then w.puts [39, 34, 39, 34] else some w).bind fun p => p.put c).bind (InMemory.quote_loop s) := by
      rw [InMemory.quote_loop]
      by_cases hc : c = 39
      · rw [if_pos hc, if_pos hc, Option.bind_assoc]
        rfl
      · rw [if_neg hc, if_neg hc]
        rfl
    have hroom : (w.bytes ++ quoteByte c).length + (s.flatMap quoteByte).length ≤ w.size := by
      rw [List.length_append]
      omega
    rw [hstep, quote_step (by omega), Option.bind_some, ih hroom]
    simp

/-- Only a quote takes more than one byte, and it is one of those that need
quoting. -/
theorem quoted_length (s : Bytes) : (s.flatMap quoteByte).length ≤ s.length + 4 * needsQuoting s := by
  induction s with
  | nil => simp
  | cons c s ih =>
    rw [List.flatMap_cons, List.length_append, List.length_cons]
    unfold needsQuoting at ih ⊢
    by_cases hc : c = 39
    · subst hc
      have hlen : (quoteByte 39).length = 5 := rfl
      rw [List.filter_cons_of_pos (by decide), List.length_cons]
      omega
    · have hlen : (quoteByte c).length = 1 := by rw [quoteByte, if_neg hc]; rfl
      have hle : (s.filter fun c => !nr_isshok c).length ≤ ((c :: s).filter fun c => !nr_isshok c).length := by
        rw [List.filter_cons]
        split <;> simp
      omega

/-- The block has room for what is written, and holds the quoted text. -/
theorem quote_string_refines (s : Bytes) :
    InMemory.nr_shell_quote_string s = (nr_shell_quote_string s).map fun r => r.map fun quoted => quoted ++ [0] := by
  have hlen := quoted_length s
  have hloop : ∀ w : Writer, w.bytes.length + (s.flatMap quoteByte).length ≤ w.size → InMemory.quote_loop s w =
      some { w with bytes := w.bytes ++ s.flatMap quoteByte } := fun w h => quote_loop_room h
  unfold needsQuoting at hlen
  unfold InMemory.nr_shell_quote_string nr_shell_quote_string
  dsimp only
  generalize s.flatMap quoteByte = quoted at hlen hloop ⊢
  split
  · rfl
  split
  · have hopen : ([] ++ [39] : Bytes).length + quoted.length ≤
        s.length + 4 * (s.filter fun c => !nr_isshok c).length + 3 := by
      simp
      omega
    have hclose : ([] ++ [39] ++ quoted : Bytes).length < s.length + 4 * (s.filter fun c => !nr_isshok c).length + 3 := by
      simp
      omega
    have hzero : ([] ++ [39] ++ quoted ++ [39] : Bytes).length <
        s.length + 4 * (s.filter fun c => !nr_isshok c).length + 3 := by
      simp
      omega
    rw [put_room (by simp), Option.bind_eq_bind, Option.bind_some, hloop _ hopen, Option.bind_some, put_room hclose,
      Option.bind_some, put_room hzero]
    rfl
  · rfl

/-! ## The words -/

theorem quoted_isWord {s text : Bytes} (hne : s ≠ []) (h : shellWord s = some text) : IsWord text s := by
  intro words
  have hcmd : commandsOf .plain none words (text ++ []) = commandsOf .plain (some s) words [] := commandsOf_shellWord hne h
  rw [List.append_nil] at hcmd
  rw [hcmd]
  simp [commandsOf, closeWord, closeCommand]

/-- Nothing is no word. -/
theorem nil_not_isWord (word : Bytes) : ¬ IsWord [] word := by
  intro h
  have hnil := h []
  simp [commandsOf, closeWord, closeCommand] at hnil

/-- A string without a zero has none when it is quoted. -/
theorem quoted_zero {s : Bytes} (h : 0 ∉ s) : 0 ∉ [39] ++ s.flatMap quoteByte ++ [39] := by
  have hbyte : ∀ c ∈ s, 0 ∉ quoteByte c := by
    intro c hc
    by_cases h39 : c = 39
    · rw [h39]
      decide
    · rw [quoteByte, if_neg h39, List.mem_singleton]
      rintro rfl
      exact h hc
  simpa using hbyte

theorem quote_string_cases {s : Bytes} {r : Except Status Bytes} (h : nr_shell_quote_string s = some r) :
    r = .error .R_REJECTED ∨ r = .ok ([39] ++ s.flatMap quoteByte ++ [39]) := by
  unfold nr_shell_quote_string at h
  dsimp only at h
  split at h
  · exact .inl (Option.some.inj h).symm
  split at h
  · exact .inr (Option.some.inj h).symm
  · cases h

/-- A string comes out as one word unless it is empty, or the size of its block
overflows. -/
theorem quoting_faithful_iff {s : Bytes} (h0 : 0 ∉ s) :
    Faithful s ↔ s ≠ [] ∧ ((∀ c ∈ s, nr_isshok c = true) ∨ s.length + 4 * needsQuoting s + 3 < 2 ^ 31) := by
  constructor
  · rintro ⟨⟨text, htext, hword⟩, -⟩
    refine ⟨?_, shellWord_isSome.1 (by rw [htext]; rfl)⟩
    rintro rfl
    cases htext
    exact nil_not_isWord [] hword
  · rintro ⟨hne, hroom⟩
    obtain ⟨text, htext⟩ := Option.isSome_iff_exists.1 (shellWord_isSome.2 hroom)
    refine ⟨⟨text, htext, quoted_isWord hne htext⟩, ?_⟩
    obtain ⟨r, hr, rfl⟩ := Option.map_eq_some_iff.1 htext
    rw [quote_string_refines, hr]
    rcases quote_string_cases hr with rfl | rfl
    · refine ⟨_, rfl, (fun block hb => by cases hb), fun e he => ?_⟩
      cases he
      exact ⟨rfl, quoted_isWord hne htext⟩
    · refine ⟨_, rfl, fun block hb => ?_, fun e he => by cases he⟩
      cases hb
      refine ⟨?_, _, readString_append (quoted_zero h0), quoted_isWord hne htext⟩
      have hlen := quoted_length s
      simp only [List.length_append, List.length_singleton]
      omega

theorem quoting_faithful_blank : Faithful (str "it's a b") :=
  (quoting_faithful_iff (by decide)).2 ⟨by decide, .inr (by decide)⟩

/-- The empty string is printed as it is. -/
theorem empty_string_lost : ¬ Faithful [] := by
  rintro ⟨⟨text, htext, hword⟩, -⟩
  cases htext
  exact nil_not_isWord [] hword

end Nrappkit.Control
