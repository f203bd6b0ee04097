import Mathlib.Data.List.Basic
import Mathlib.Tactic.Common
/-!
# Lines of a stream

A stream is cut into lines by terminators and arrives in pieces. `scan` keeps
the line that is still open, so scanning piece by piece gives the lines of the
whole.
-/

namespace Lib

variable {α : Type} {term : α → Bool}

/-- The lines that a piece of the stream closes, and the line left open, with
`line` open before it. -/
def scan (term : α → Bool) : List α → List α → List (List α) × List α
  | line, [] => ([], line)
  | line, c :: l =>
    if term c then (line :: (scan term [] l).1, (scan term [] l).2) else scan term (line ++ [c]) l

/-- Scanning goes on where it stopped. -/
theorem scan_append (line a b : List α) :
    scan term line (a ++ b) =
      ((scan term line a).1 ++ (scan term (scan term line a).2 b).1, (scan term (scan term line a).2 b).2) := by
  induction a generalizing line with
  | nil => rfl
  | cons c a ih =>
    rw [List.cons_append, scan, scan]
    split
    · rw [ih]
      rfl
    · exact ih _

/-- A piece without a terminator only makes the open line longer. -/
theorem scan_open (line : List α) {l : List α} (h : ∀ c ∈ l, term c = false) : scan term line l = ([], line ++ l) := by
  induction l generalizing line with
  | nil => rw [scan, List.append_nil]
  | cons c l ih =>
    rw [scan, if_neg (by simp [h c (by simp)]), ih _ fun d hd => h d (by simp [hd]), List.append_assoc]
    rfl

/-- A terminator closes the open line. -/
theorem scan_close (line : List α) {l : List α} (h : ∀ c ∈ l, term c = false) {t : α} (ht : term t = true)
    (rest : List α) : scan term line (l ++ t :: rest) = ((line ++ l) :: (scan term [] rest).1, (scan term [] rest).2) := by
  rw [scan_append, scan_open line h, scan, if_pos ht]
  rfl

/-- The open line has no terminator. -/
theorem scan_rest (line l : List α) (h : ∀ c ∈ line, term c = false) : ∀ c ∈ (scan term line l).2, term c = false := by
  induction l generalizing line with
  | nil => exact h
  | cons c l ih =>
    rw [scan]
    split
    · exact ih [] (by simp)
    · rename_i hc
      refine ih _ fun d hd => ?_
      rcases List.mem_append.1 hd with hd | hd
      · exact h d hd
      · rw [List.mem_singleton.1 hd]
        exact Bool.eq_false_iff.2 hc

end Lib
