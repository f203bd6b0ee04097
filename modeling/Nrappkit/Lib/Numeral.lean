import Mathlib.Data.Nat.Digits.Lemmas
/-!
# Numerals

The digits of a number in a base up to sixteen, as the characters that print
them. Reading the digits at the start of a text gives back the number that was
printed there.
-/

namespace Lib

/-- The character of a digit, in lower case. -/
def digitChar (d : Nat) : UInt8 := UInt8.ofNat (if d < 10 then 48 + d else 87 + d)

/-- The digit of a character of any case, 16 for a character that is none. -/
def digitVal (c : UInt8) : Nat :=
  if 48 ≤ c.toNat ∧ c.toNat ≤ 57 then c.toNat - 48
  else if 97 ≤ c.toNat ∧ c.toNat ≤ 102 then c.toNat - 87
  else if 65 ≤ c.toNat ∧ c.toNat ≤ 70 then c.toNat - 55
  else 16

/-- The numeral of a number, the highest digit first. -/
def numeral (base n : Nat) : List UInt8 :=
  if n = 0 then [digitChar 0] else ((Nat.digits base n).map digitChar).reverse

/-- The number that the digits stand for. -/
def numeralVal (base : Nat) (l : List UInt8) : Nat := l.foldl (fun n c => n * base + digitVal c) 0

/-- The digits at the start of a text. -/
def leadingDigits (base : Nat) (l : List UInt8) : List UInt8 := l.takeWhile fun c => digitVal c < base

/-- A fact about every byte follows from its check on the 256 of them. -/
theorem byte_all {P : UInt8 → Prop} (h : ∀ n : Fin 256, P (UInt8.ofNat n)) (c : UInt8) : P c := by
  have hc := h ⟨c.toNat, c.toNat_lt⟩
  rwa [UInt8.ofNat_toNat] at hc

variable {base n : Nat}

theorem digitVal_digitChar {d : Nat} (h : d < 16) : digitVal (digitChar d) = d := by
  have hall : ∀ d : Fin 16, digitVal (digitChar d) = d := by decide
  exact hall ⟨d, h⟩

theorem numeral_mem (hb : 1 < base) {c : UInt8} (hc : c ∈ numeral base n) : ∃ d < base, c = digitChar d := by
  unfold numeral at hc
  split at hc
  · exact ⟨0, by omega, List.mem_singleton.1 hc⟩
  · obtain ⟨d, hd, rfl⟩ := List.mem_map.1 (List.mem_reverse.1 hc)
    exact ⟨d, Nat.digits_lt_base hb hd, rfl⟩

theorem numeral_ne_nil : numeral base n ≠ [] := by
  unfold numeral
  split
  · simp
  · rename_i h
    simpa [Nat.digits_eq_nil_iff_eq_zero] using h

theorem numeral_length_le (hb : 1 < base) {k : Nat} (hk : 0 < k) (hn : n < base ^ k) : (numeral base n).length ≤ k := by
  unfold numeral
  split
  · exact hk
  · rw [List.length_reverse, List.length_map]
    exact (Nat.digits_length_le_iff hb n).2 hn

/-- What is printed is read back. -/
theorem numeralVal_numeral (hb : 1 < base) (h16 : base ≤ 16) : numeralVal base (numeral base n) = n := by
  unfold numeral
  split
  · rename_i h
    subst h
    simp [numeralVal, digitVal_digitChar]
  · rw [numeralVal, List.foldl_reverse, List.foldr_map]
    have hfold : ∀ l : List Nat, (∀ d ∈ l, d < base) →
        l.foldr (fun d n => n * base + digitVal (digitChar d)) 0 = Nat.ofDigits base l := by
      intro l hl
      induction l with
      | nil => rfl
      | cons d l ih =>
        rw [List.foldr_cons, ih fun e he => hl e (List.mem_cons_of_mem d he), Nat.ofDigits_cons,
          digitVal_digitChar (Nat.lt_of_lt_of_le (hl d List.mem_cons_self) h16), Nat.mul_comm, Nat.add_comm]
    rw [hfold _ fun d hd => Nat.digits_lt_base hb hd, Nat.ofDigits_digits]

theorem numeral_inj (hb : 1 < base) (h16 : base ≤ 16) {m : Nat} (h : numeral base n = numeral base m) : n = m := by
  rw [← numeralVal_numeral hb h16 (n := n), h, numeralVal_numeral hb h16]

end Lib
