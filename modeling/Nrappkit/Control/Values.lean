import Nrappkit.Control.Nrregctl
/-!
# Values as words

A word that is printed in shell mode comes out of the shell as it went in, and
the word of a scalar is converted to the scalar it was printed for.
-/
open Lib Nrappkit.Registry

namespace Nrappkit.Control

/-! ## Bytes -/

theorem shok_stands {c : UInt8} (h : nr_isshok c = true) : standsForItself c = true ∧ c ≠ 92 ∧ c ≠ 64 := by
  have hall : ∀ n : Fin 256, nr_isshok (UInt8.ofNat n) = true →
      standsForItself (UInt8.ofNat n) = true ∧ UInt8.ofNat n ≠ 92 ∧ UInt8.ofNat n ≠ 64 := by decide +kernel
  exact byte_all (P := fun c => nr_isshok c = true → standsForItself c = true ∧ c ≠ 92 ∧ c ≠ 64) hall c h

/-- What a digit of any base is not. -/
theorem digit_stands {c : UInt8} (h : digitVal c < 16) :
    standsForItself c = true ∧ isspace c = false ∧ c ≠ 45 ∧ c ≠ 43 ∧ c ≠ 120 ∧ c ≠ 88 ∧ c ≠ 92 ∧ c ≠ 64 := by
  have hall : ∀ n : Fin 256, digitVal (UInt8.ofNat n) < 16 → standsForItself (UInt8.ofNat n) = true ∧
      isspace (UInt8.ofNat n) = false ∧ UInt8.ofNat n ≠ 45 ∧ UInt8.ofNat n ≠ 43 ∧ UInt8.ofNat n ≠ 120 ∧
      UInt8.ofNat n ≠ 88 ∧ UInt8.ofNat n ≠ 92 ∧ UInt8.ofNat n ≠ 64 := by decide +kernel
  exact byte_all (P := fun c => digitVal c < 16 → standsForItself c = true ∧ isspace c = false ∧ c ≠ 45 ∧ c ≠ 43 ∧
    c ≠ 120 ∧ c ≠ 88 ∧ c ≠ 92 ∧ c ≠ 64) hall c h

section
variable {words : List Bytes} {script : Bytes}

/-- What stands between the quotes. -/
theorem commandsOf_quoted (w b : Bytes) :
    commandsOf .single (some w) words (b.flatMap quoteByte ++ 39 :: script) =
      commandsOf .plain (some (w ++ b)) words script := by
  induction b generalizing w with
  | nil => simp [commandsOf]
  | cons c b ih =>
    rw [List.flatMap_cons, List.append_assoc]
    by_cases hc : c = 39
    · -- the quote is closed, and one in double quotes is put between
      subst hc
      have hstep : commandsOf .single (some w) words (quoteByte 39 ++ (b.flatMap quoteByte ++ 39 :: script)) =
          commandsOf .single (some (w ++ [39])) words (b.flatMap quoteByte ++ 39 :: script) := by
        simp [quoteByte, commandsOf, extend]
      rw [hstep, ih, List.append_assoc, List.singleton_append]
    · have hstep : commandsOf .single (some w) words (quoteByte c ++ (b.flatMap quoteByte ++ 39 :: script)) =
          commandsOf .single (some (w ++ [c])) words (b.flatMap quoteByte ++ 39 :: script) := by
        simp [quoteByte, commandsOf, extend, hc]
      rw [hstep, ih, List.append_assoc, List.singleton_append]

/-- A string that is not empty comes out as one word. -/
theorem commandsOf_shellWord {b text : Bytes} (hne : b ≠ []) (h : shellWord b = some text) :
    commandsOf .plain none words (text ++ script) = commandsOf .plain (some b) words script := by
  unfold shellWord nr_shell_quote_string at h
  dsimp only at h
  split at h
  · rename_i hzero
    cases h
    have hall : ∀ c ∈ b, standsForItself c = true := by
      intro c hc
      have hshok : nr_isshok c = true := by simpa using List.filter_eq_nil_iff.1 (List.eq_nil_of_length_eq_zero hzero) c hc
      exact (shok_stands hshok).1
    rw [commandsOf_text hne hall]
    rfl
  · split at h
    · cases h
      rw [List.append_assoc, List.append_assoc, List.singleton_append, List.singleton_append, commandsOf]
      · exact commandsOf_quoted [] b
      · rintro d l ⟨⟩
    · cases h

/-- Where the word of a string is defined. -/
theorem shellWord_isSome {b : Bytes} : (shellWord b).isSome = true ↔
    (∀ c ∈ b, nr_isshok c = true) ∨ b.length + 4 * (b.filter fun c => !nr_isshok c).length + 3 < 2 ^ 31 := by
  unfold shellWord nr_shell_quote_string
  dsimp only
  split
  · rename_i hzero
    refine iff_of_true rfl (.inl fun c hc => ?_)
    simpa using List.filter_eq_nil_iff.1 (List.eq_nil_of_length_eq_zero hzero) c hc
  · rename_i hpos
    have hno : ¬ ∀ c ∈ b, nr_isshok c = true := by
      intro hall
      exact hpos (by rw [List.filter_eq_nil_iff.2 fun c hc => by simp [hall c hc]]; rfl)
    split
    · rename_i hlt
      exact iff_of_true rfl (.inr hlt)
    · rename_i hge
      exact iff_of_false (by simp) (not_or.2 ⟨hno, hge⟩)

end

/-! ## Numbers -/

theorem afterPrefix_digits {base : Nat} {text : Bytes} (h : ∀ c ∈ text, digitVal c < 16) : afterPrefix base text = text := by
  unfold afterPrefix
  split
  · rename_i x c text
    obtain ⟨-, -, -, -, hx, hX, -⟩ := digit_stands (h x (by simp))
    simp [hx, hX]
  · rfl

theorem leadingDigits_all {base : Nat} {text : Bytes} (h : ∀ c ∈ text, digitVal c < base) : leadingDigits base text = text :=
  List.takeWhile_eq_self_iff.2 fun c hc => decide_eq_true (h c hc)

theorem scanNumber_digits {base : Nat} (h16 : base ≤ 16) {text : Bytes} (hne : text ≠ [])
    (h : ∀ c ∈ text, digitVal c < base) : scanNumber base text = some (false, numeralVal base text) := by
  have hall : ∀ c ∈ text, digitVal c < 16 := fun c hc => Nat.lt_of_lt_of_le (h c hc) h16
  have hsign : signOf (text.dropWhile isspace) = (false, text) := by
    obtain ⟨c, rest, rfl⟩ := List.exists_cons_of_ne_nil hne
    obtain ⟨-, hs, h45, h43, -⟩ := digit_stands (hall c List.mem_cons_self)
    rw [List.dropWhile_cons_of_neg (by simp [hs])]
    unfold signOf
    split
    · simp_all
    · simp_all
    · rfl
  unfold scanNumber
  rw [hsign]
  dsimp only
  rw [afterPrefix_digits hall, leadingDigits_all h, if_neg hne]

theorem scanNumber_minus {base : Nat} (h16 : base ≤ 16) {text : Bytes} (hne : text ≠ [])
    (h : ∀ c ∈ text, digitVal c < base) : scanNumber base (45 :: text) = some (true, numeralVal base text) := by
  have hall : ∀ c ∈ text, digitVal c < 16 := fun c hc => Nat.lt_of_lt_of_le (h c hc) h16
  have hsign : signOf ((45 :: text).dropWhile isspace) = (true, text) := rfl
  unfold scanNumber
  rw [hsign]
  dsimp only
  rw [afterPrefix_digits hall, leadingDigits_all h, if_neg hne]

section
variable {base n : Nat}

theorem digits_of_numeral (hb : 1 < base) (h16 : base ≤ 16) : ∀ c ∈ numeral base n, digitVal c < base := by
  intro c hc
  obtain ⟨d, hd, rfl⟩ := numeral_mem hb hc
  rw [digitVal_digitChar (Nat.lt_of_lt_of_le hd h16)]
  exact hd

theorem scan_decimal {bits : Nat} (hn : n < 2 ^ bits) : scanUnsigned 10 bits (decimal n) = some n := by
  have hdec : decimal n = numeral 10 n := by simp [decimal]
  unfold scanUnsigned
  rw [hdec, scanNumber_digits (by decide) numeral_ne_nil (digits_of_numeral (by decide) (by decide)),
    numeralVal_numeral (by decide) (by decide)]
  simp [hn]

theorem scan_signed {v : Int} {bits : Nat} (hlo : -2 ^ (bits - 1) ≤ v) (hhi : v < 2 ^ (bits - 1)) :
    scanSigned bits (decimal v) = some v := by
  have hdigits : ∀ c ∈ numeral 10 v.natAbs, digitVal c < 10 := digits_of_numeral (by decide) (by decide)
  unfold scanSigned decimal
  split
  · rename_i hneg
    have habs : -(v.natAbs : Int) = v := by omega
    rw [scanNumber_minus (by decide) numeral_ne_nil hdigits, numeralVal_numeral (by decide) (by decide),
      Option.bind_some]
    dsimp only
    rw [if_pos rfl, habs, if_pos ⟨hlo, hhi⟩]
  · rename_i hpos
    have habs : (v.natAbs : Int) = v := by omega
    rw [scanNumber_digits (by decide) numeral_ne_nil hdigits, numeralVal_numeral (by decide) (by decide),
      Option.bind_some]
    simp only [Bool.false_eq_true, if_false]
    rw [habs, if_pos ⟨hlo, hhi⟩]

end

/-! ## Scalars -/

section
variable {env : Env} {words : List Bytes} {script : Bytes}

end

end Nrappkit.Control
