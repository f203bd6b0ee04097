import Nrappkit.Lib.Numeral
import Mathlib.Tactic.Common
/-!
# Bytes in hexadecimal

A byte is two digits, the high one first. Reading takes digits of any case, and
writing gives lower case.
-/

namespace Lib

/-- The two digits of a byte. -/
def hexByte (b : UInt8) : List UInt8 := [digitChar (b.toNat / 16), digitChar (b.toNat % 16)]

def encodeHex (bs : List UInt8) : List UInt8 := bs.flatMap hexByte

/-- The byte of two digits. -/
def byteOfHex (hi lo : UInt8) : UInt8 := UInt8.ofNat (16 * digitVal hi + digitVal lo)

def isHexDigit (c : UInt8) : Bool := digitVal c < 16

/-- The bytes of digits, if they are digits and come in pairs. -/
def decodeHex : List UInt8 → Option (List UInt8)
  | [] => some []
  | [_] => none
  | hi :: lo :: l => if isHexDigit hi && isHexDigit lo then (decodeHex l).map (byteOfHex hi lo :: ·) else none

/-- A letter in lower case. -/
def lowerCase (c : UInt8) : UInt8 := if 65 ≤ c && c ≤ 90 then c + 32 else c

variable {bs l : List UInt8} {hi lo : UInt8}

theorem encodeHex_cons (b : UInt8) (bs : List UInt8) : encodeHex (b :: bs) = hexByte b ++ encodeHex bs := List.flatMap_cons

theorem encodeHex_length (bs : List UInt8) : (encodeHex bs).length = 2 * bs.length := by
  induction bs with
  | nil => rfl
  | cons b bs ih =>
    rw [encodeHex_cons, List.length_append, ih, List.length_cons]
    show 2 + 2 * bs.length = _
    omega

theorem isHexDigit_digitChar {d : Nat} (h : d < 16) : isHexDigit (digitChar d) = true := by
  rw [isHexDigit, digitVal_digitChar h]
  exact decide_eq_true h

theorem lowerCase_digit {c : UInt8} (h : isHexDigit c = true) : lowerCase c = digitChar (digitVal c) := by
  revert h
  apply byte_all (P := fun c => isHexDigit c = true → lowerCase c = digitChar (digitVal c))
  decide +kernel

theorem lowerCase_digitChar {d : Nat} (h : d < 16) : lowerCase (digitChar d) = digitChar d := by
  rw [lowerCase_digit (isHexDigit_digitChar h), digitVal_digitChar h]

theorem byteOfHex_hexByte (b : UInt8) : byteOfHex (digitChar (b.toNat / 16)) (digitChar (b.toNat % 16)) = b := by
  have hb := b.toNat_lt
  rw [byteOfHex, digitVal_digitChar (by omega), digitVal_digitChar (by omega), Nat.div_add_mod, UInt8.ofNat_toNat]

theorem hexByte_byteOfHex (hhi : isHexDigit hi = true) (hlo : isHexDigit lo = true) :
    hexByte (byteOfHex hi lo) = [lowerCase hi, lowerCase lo] := by
  rw [lowerCase_digit hhi, lowerCase_digit hlo]
  have hhi := of_decide_eq_true hhi
  have hlo := of_decide_eq_true hlo
  have hnat : (byteOfHex hi lo).toNat = 16 * digitVal hi + digitVal lo := by
    rw [byteOfHex, UInt8.toNat_ofNat', Nat.mod_eq_of_lt (by omega)]
  have hdiv : (16 * digitVal hi + digitVal lo) / 16 = digitVal hi := by omega
  have hmod : (16 * digitVal hi + digitVal lo) % 16 = digitVal lo := by omega
  rw [hexByte, hnat, hdiv, hmod]

/-- What is written is in lower case. -/
theorem encodeHex_lower {c : UInt8} (h : c ∈ encodeHex bs) : isHexDigit c = true ∧ lowerCase c = c := by
  obtain ⟨b, -, hc⟩ := List.mem_flatMap.1 h
  have hb := b.toNat_lt
  obtain ⟨d, hd, rfl⟩ : ∃ d < 16, c = digitChar d := by
    rcases List.mem_cons.1 hc with rfl | hc
    · exact ⟨_, by omega, rfl⟩
    · exact ⟨_, by omega, List.mem_singleton.1 hc⟩
  exact ⟨isHexDigit_digitChar hd, lowerCase_digitChar hd⟩

theorem decodeHex_encodeHex (bs : List UInt8) : decodeHex (encodeHex bs) = some bs := by
  induction bs with
  | nil => rfl
  | cons b bs ih =>
    have hb := b.toNat_lt
    rw [encodeHex_cons, hexByte, List.cons_append, List.cons_append, List.nil_append, decodeHex,
      isHexDigit_digitChar (by omega), isHexDigit_digitChar (by omega), ih, byteOfHex_hexByte]
    rfl

/-- Pairs of digits are what can be read. -/
theorem decodeHex_isSome (l : List UInt8) : (decodeHex l).isSome = true ↔ l.length % 2 = 0 ∧ ∀ c ∈ l, isHexDigit c = true := by
  fun_induction decodeHex l with
  | case1 => simp
  | case2 c => simp
  | case3 hi lo l hd ih =>
    obtain ⟨hhi, hlo⟩ := Bool.and_eq_true_iff.1 hd
    simp [ih, hhi, hlo]
    omega
  | case4 hi lo l hd =>
    simp only [Bool.and_eq_true, not_and] at hd
    simp only [Option.isSome_none, Bool.false_eq_true, List.forall_mem_cons, false_iff, not_and]
    exact fun _ hhi hlo => absurd hlo (hd hhi)

theorem decodeHex_length (h : decodeHex l = some bs) : l.length = 2 * bs.length := by
  fun_induction decodeHex l generalizing bs with
  | case1 =>
    cases h
    rfl
  | case2 c => cases h
  | case3 hi lo l hd ih =>
    obtain ⟨bs, hbs, rfl⟩ := Option.map_eq_some_iff.1 h
    rw [List.length_cons, List.length_cons, ih hbs, List.length_cons]
    omega
  | case4 => cases h

/-- Writing what was read gives the digits in lower case. -/
theorem encodeHex_decodeHex (h : decodeHex l = some bs) : encodeHex bs = l.map lowerCase := by
  fun_induction decodeHex l generalizing bs with
  | case1 =>
    cases h
    rfl
  | case2 c => cases h
  | case3 hi lo l hd ih =>
    obtain ⟨bs, hbs, rfl⟩ := Option.map_eq_some_iff.1 h
    obtain ⟨hhi, hlo⟩ := Bool.and_eq_true_iff.1 hd
    rw [encodeHex_cons, hexByte_byteOfHex hhi hlo, ih hbs]
    rfl
  | case4 => cases h

end Lib
