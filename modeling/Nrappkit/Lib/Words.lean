import Mathlib.Data.List.Basic
import Mathlib.Tactic.Common
/-!
# Words of a shell script

How a POSIX shell cuts a script into commands and their words: blanks end a
word, a newline ends a command, and quotes are removed. Only what needs no
expansion is covered: a script that holds another character with a meaning to
the shell outside of single quotes is `none`.
-/

namespace Lib

inductive Quote where
  | plain
  | single
  | double
  deriving DecidableEq

/-- The characters that mean something to a shell, quotes, blanks and newlines
apart: `|&;<>()$*?[]#~=%!` and the backquote, braces and caret. -/
def meansSomething (c : UInt8) : Bool :=
  [124, 38, 59, 60, 62, 40, 41, 36, 42, 63, 91, 93, 35, 126, 61, 37, 33, 96, 123, 125, 94].contains c

/-- The words with the open one closed. -/
def closeWord (word : Option (List UInt8)) (words : List (List UInt8)) : List (List UInt8) :=
  words ++ word.toList

/-- The commands with the open one closed; a line without a word is none. -/
def closeCommand (words : List (List UInt8)) (commands : List (List (List UInt8))) : List (List (List UInt8)) :=
  if words = [] then commands else words :: commands

/-- The open word with more text. -/
def extend (word : Option (List UInt8)) (text : List UInt8) : Option (List UInt8) := some (word.getD [] ++ text)

/-- The commands of a script, with a word and the words before it open. -/
def commandsOf : Quote → Option (List UInt8) → List (List UInt8) → List UInt8 → Option (List (List (List UInt8)))
  | .plain, word, words, [] => some (closeCommand (closeWord word words) [])
  | _, _, _, [] => none
  | .plain, word, words, 92 :: c :: script =>
    commandsOf .plain (if c = 10 then word else extend word [c]) words script
  | .plain, word, words, c :: script =>
    if c = 39 then commandsOf .single (extend word []) words script
    else if c = 34 then commandsOf .double (extend word []) words script
    else if c = 32 || c = 9 then commandsOf .plain none (closeWord word words) script
    else if c = 10 then (commandsOf .plain none [] script).map (closeCommand (closeWord word words))
    else if c = 92 || meansSomething c then none
    else commandsOf .plain (extend word [c]) words script
  | .single, word, words, c :: script =>
    if c = 39 then commandsOf .plain word words script else commandsOf .single (extend word [c]) words script
  | .double, word, words, c :: script =>
    if c = 34 then commandsOf .plain word words script
    else if c = 36 || c = 96 || c = 92 then none
    else commandsOf .double (extend word [c]) words script

/-- A character that stands for itself outside of quotes. -/
def standsForItself (c : UInt8) : Bool :=
  !(c = 39 || c = 34 || c = 32 || c = 9 || c = 10 || c = 92 || meansSomething c)

variable {word : Option (List UInt8)} {words : List (List UInt8)} {script : List UInt8}

theorem extend_extend (word : Option (List UInt8)) (a b : List UInt8) : extend (extend word a) b = extend word (a ++ b) := by
  simp [extend]

theorem commandsOf_char {c : UInt8} (h : standsForItself c = true) :
    commandsOf .plain word words (c :: script) = commandsOf .plain (extend word [c]) words script := by
  simp only [standsForItself, Bool.not_eq_true', Bool.or_eq_false_iff, decide_eq_false_iff_not] at h
  obtain ⟨⟨⟨⟨⟨⟨h39, h34⟩, h32⟩, h9⟩, h10⟩, h92⟩, hm⟩ := h
  rw [commandsOf]
  · rw [if_neg h39, if_neg h34, if_neg (by simp [h32, h9]), if_neg h10, if_neg (by simp [h92, hm])]
  · rintro d l rfl
    exact absurd rfl h92

/-- Text that stands for itself makes the open word longer. -/
theorem commandsOf_text {text : List UInt8} (hne : text ≠ []) (h : ∀ c ∈ text, standsForItself c = true) :
    commandsOf .plain word words (text ++ script) = commandsOf .plain (extend word text) words script := by
  induction text generalizing word with
  | nil => exact absurd rfl hne
  | cons c text ih =>
    rw [List.cons_append, commandsOf_char (h c List.mem_cons_self)]
    cases text with
    | nil => rfl
    | cons d text =>
      rw [ih (by simp) fun e he => h e (List.mem_cons_of_mem c he), extend_extend]
      rfl

end Lib
