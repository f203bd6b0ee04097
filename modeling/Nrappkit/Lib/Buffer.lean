import Mathlib.Tactic.Common
import Mathlib.Data.List.TakeWhile
/-!
# Strings in blocks of bytes

A block of bytes holds a string if there is a zero in it; the string is what
stands before the first one. `strncpy` fills what is left of its `n` bytes with
zeros, and writes no zero behind a string of `n` bytes or more. `splice` writes
over a part of a block.
-/

namespace Lib

/-- The string at the start of a block. -/
def readString (block : List UInt8) : Option (List UInt8) :=
  if 0 ∈ block then some (block.takeWhile (· ≠ 0)) else none

/-- Copy a string into the first `n` bytes of a block. -/
def strncpy (n : Nat) (block string : List UInt8) : List UInt8 :=
  string.take n ++ List.replicate (n - string.length) 0 ++ block.drop n

variable {block string rest : List UInt8} {n : Nat}

theorem readString_append (h : 0 ∉ string) : readString (string ++ 0 :: rest) = some string := by
  have hne : ∀ c ∈ string, decide (c ≠ 0) = true := by
    intro c hc
    rw [decide_eq_true_eq]
    rintro rfl
    exact h hc
  rw [readString, if_pos (by simp), List.takeWhile_append_of_pos hne, List.takeWhile_cons_of_neg (by simp),
    List.append_nil]

theorem readString_eq_some : readString block = some string ↔ 0 ∉ string ∧ ∃ rest, block = string ++ 0 :: rest := by
  constructor
  · intro h
    unfold readString at h
    split at h
    · rename_i h0
      cases h
      obtain ⟨a, b, rfl, ha⟩ := List.eq_append_cons_of_mem h0
      have hread : readString (a ++ 0 :: b) = some a := readString_append ha
      rw [readString, if_pos h0, Option.some.injEq] at hread
      rw [hread]
      exact ⟨ha, b, rfl⟩
    · cases h
  · rintro ⟨h0, rest, rfl⟩
    exact readString_append h0

theorem readString_eq_none : readString block = none ↔ 0 ∉ block := by
  unfold readString
  split <;> simp [*]

/-- A string that has begun goes on in what follows. -/
theorem readString_begun (h : 0 ∉ string) (block : List UInt8) :
    readString (string ++ block) = (readString block).map (string ++ ·) := by
  cases hb : readString block with
  | none =>
    rw [readString_eq_none] at hb
    rw [Option.map_none, readString_eq_none, List.mem_append]
    exact fun h0 => h0.elim h hb
  | some s =>
    obtain ⟨hs, rest, rfl⟩ := readString_eq_some.1 hb
    rw [Option.map_some, ← List.append_assoc]
    exact readString_append fun h0 => (List.mem_append.1 h0).elim h hs

theorem strncpy_length (h : n ≤ block.length) : (strncpy n block string).length = block.length := by
  rw [strncpy, List.length_append, List.length_append, List.length_take, List.length_replicate, List.length_drop]
  omega

/-- A string that leaves room for a zero is read back. -/
theorem readString_strncpy (h0 : 0 ∉ string) (hlen : string.length < n) :
    readString (strncpy n block string) = some string := by
  obtain ⟨k, hk⟩ : ∃ k, n - string.length = k + 1 := ⟨n - string.length - 1, by omega⟩
  rw [strncpy, List.take_of_length_le (Nat.le_of_lt hlen), hk, List.replicate_succ, List.append_assoc,
    List.cons_append]
  exact readString_append h0

/-- A string that fills the `n` bytes goes on in the rest of the block. -/
theorem readString_strncpy_full (h0 : 0 ∉ string) (hlen : string.length = n) :
    readString (strncpy n block string) = (readString (block.drop n)).map (string ++ ·) := by
  rw [strncpy, List.take_of_length_le (Nat.le_of_eq hlen), hlen, Nat.sub_self, List.replicate_zero, List.append_nil]
  exact readString_begun h0 _

/-! ## Writing over a part -/

/-- The list from `off` on is written over. -/
def splice {α : Type} (off : Nat) (new old : List α) : List α := old.take off ++ new ++ old.drop (off + new.length)

section
variable {α : Type} {off : Nat} {new old : List α}

theorem splice_length (h : off + new.length ≤ old.length) : (splice off new old).length = old.length := by
  rw [splice, List.length_append, List.length_append, List.length_take, List.length_drop]
  omega

/-- The part that was written. -/
theorem splice_inside (h : off + new.length ≤ old.length) : ((splice off new old).drop off).take new.length = new := by
  have hoff : (old.take off).length = off := by
    rw [List.length_take]
    omega
  rw [splice, List.append_assoc, List.drop_left' hoff, List.take_left' rfl]

/-- A part that is apart from it. -/
theorem splice_outside {off' n : Nat} (h : off + new.length ≤ old.length) (hap : off' + n ≤ off ∨ off + new.length ≤ off') :
    ((splice off new old).drop off').take n = (old.drop off').take n := by
  have hoff : (old.take off).length = off := by
    rw [List.length_take]
    omega
  rcases hap with hbefore | hbehind
  · rw [splice, List.append_assoc, List.drop_append_of_le_length (by omega), List.take_append_of_le_length, List.drop_take,
      List.take_take, Nat.min_eq_left (by omega)]
    rw [List.length_drop]
    omega
  · obtain ⟨m, rfl⟩ := Nat.exists_eq_add_of_le hbehind
    have hfront : (old.take off ++ new).length = off + new.length := by rw [List.length_append, hoff]
    rw [splice, ← List.drop_drop, List.drop_left' hfront, List.drop_drop]

end

end Lib
