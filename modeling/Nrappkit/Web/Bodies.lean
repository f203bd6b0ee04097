import Nrappkit.Web.Handler
/-!
# What the bodies say

A body that is stored is read back from its page: the text of a number, a string
or a registry says, as a body, what it was printed for.
-/
open Lib Nrappkit.Registry Nrappkit.Assoc Nrappkit.Control Nrappkit.Service

namespace Nrappkit.Web

variable {env : Env} {content : Bytes}

/-- A C string with its terminator fits. -/
def Clean : Arg → Prop
  | .string b => 0 ∉ b ∧ b.length + 1 < 2 ^ 32
  | _ => True

/-- What a body says is of the type that was asked for, and is a C string where
it is a string. -/
theorem put_arg_type {type : NR_REG_TYPE} {content : Bytes} {arg : Arg} (h : put_arg env type content = some (some arg)) :
    arg.type = type ∧ (content.length + 1 < 2 ^ 31 → Clean arg) := by
  have hmapped : ∀ {α : Type} {x : Option (Option α)} {f : α → Scalar},
      x.map (·.map fun v => Arg.scalar (f v)) = some (some arg) → ∃ v, arg = .scalar (f v) := by
    intro α x f hx
    obtain ⟨y, -, hy⟩ := Option.map_eq_some_iff.1 hx
    obtain ⟨v, -, hv⟩ := Option.map_eq_some_iff.1 hy
    exact ⟨v, hv.symm⟩
  cases type with
  | CHAR | UCHAR | INT2 | UINT2 | INT4 | UINT4 | INT8 | UINT8 =>
    obtain ⟨v, rfl⟩ := hmapped h
    exact ⟨rfl, fun _ => trivial⟩
  | DOUBLE =>
    obtain ⟨v, -, rfl⟩ := Option.map_eq_some_iff.1 (Option.some.inj h)
    exact ⟨rfl, fun _ => trivial⟩
  | REGISTRY =>
    obtain rfl := Option.some.inj (Option.some.inj h)
    exact ⟨rfl, fun _ => trivial⟩
  | BYTES =>
    unfold put_arg at h
    dsimp only at h
    split at h
    · obtain rfl := Option.some.inj (Option.some.inj h)
      exact ⟨rfl, fun _ => trivial⟩
    · split at h <;> cases h
  | STRING =>
    unfold put_arg at h
    dsimp only at h
    split at h
    · rename_i hlen
      obtain rfl := Option.some.inj (Option.some.inj h)
      refine ⟨rfl, fun hshort => ⟨fun hzero => ?_, by omega⟩⟩
      have hsame : content.takeWhile (· ≠ 0) = content := (List.takeWhile_prefix _).eq_of_length hlen
      rw [← hsame] at hzero
      simpa using List.mem_takeWhile_imp hzero
    · cases h

/-! ## The text of a value as a body -/

/-- The page of what a body says, for a double as it was scanned. -/
def textFor (env : Env) (name : Bytes) : Arg → Bytes
  | .scalar v => scalarText env v
  | .registry => name
  | .bytes _ => []
  | .string b => b

theorem decimal_bytes (v : Int) : ∀ c ∈ decimal v, c ≠ 0 := by
  have hdigits : ∀ c ∈ numeral 10 v.natAbs, c ≠ 0 := by
    rintro c hc rfl
    have hlt := digits_of_numeral (by decide) (by decide) 0 hc
    exact absurd hlt (by decide)
  intro c hc
  unfold decimal at hc
  split at hc
  · rcases List.mem_cons.1 hc with rfl | hc
    · decide
    · exact hdigits c hc
  · exact hdigits c hc

theorem decimal_short {v : Int} (h : v.natAbs < 10 ^ 20) : (decimal v).length ≤ 21 := by
  have hlen : (numeral 10 v.natAbs).length ≤ 20 := numeral_length_le (by decide) (by decide) h
  unfold decimal
  split
  · rw [List.length_cons]
    omega
  · omega

/-- A text without a zero, and no longer than there is room for. -/
theorem printed_number {v : Int} (h : v.natAbs < 10 ^ 20) : ((decimal v).take 99).takeWhile (· ≠ 0) = decimal v := by
  rw [List.take_of_length_le (Nat.le_trans (decimal_short h) (by decide))]
  exact List.takeWhile_eq_self_iff.2 fun c hc => decide_eq_true (decimal_bytes v c hc)

/-- A number that is printed is scanned. -/
theorem scanned_signed (bits : Nat) {v : Int} (hlo : -2 ^ (bits - 1) ≤ v) (hhi : v < 2 ^ (bits - 1)) (h : v.natAbs < 10 ^ 20) :
    sscanfSigned bits (((decimal v).take 99).takeWhile (· ≠ 0)) = some (some v) := by
  have hscan := scan_signed hlo hhi
  rw [printed_number h, sscanfSigned, hscan, if_neg]
  · rfl
  · intro hnone
    rw [scanSigned, hnone] at hscan
    cases hscan

theorem scanned_unsigned (bits : Nat) {n : Nat} (hn : n < 2 ^ bits) (h : n < 10 ^ 20) :
    sscanfUnsigned bits (((decimal n).take 99).takeWhile (· ≠ 0)) = some (some n) := by
  have hscan := scan_decimal hn
  have habs : (n : Int).natAbs < 10 ^ 20 := by simpa using h
  rw [printed_number habs, sscanfUnsigned, hscan, if_neg]
  · rfl
  · intro hnone
    rw [scanUnsigned, hnone] at hscan
    cases hscan

/-- The text of a scalar says the scalar. -/
theorem put_arg_scalar {v : Scalar} (hd : v.type ≠ .DOUBLE) : put_arg env v.type (scalarText env v) = some (some (.scalar v)) := by
  cases v with
  | _double v => exact absurd rfl hd
  | _char v =>
    have hscan := scanned_signed 8 v.le_toInt v.toInt_lt (by have := v.le_toInt; have := v.toInt_lt; omega)
    simp only [put_arg, scalarText, Scalar.type, hscan]
    simp
  | _nr_int2 v =>
    have hscan := scanned_signed 16 v.le_toInt v.toInt_lt (by have := v.le_toInt; have := v.toInt_lt; omega)
    simp only [put_arg, scalarText, Scalar.type, hscan]
    simp
  | _nr_int4 v =>
    have hscan := scanned_signed 32 v.le_toInt v.toInt_lt (by have := v.le_toInt; have := v.toInt_lt; omega)
    simp only [put_arg, scalarText, Scalar.type, hscan]
    simp
  | _nr_int8 v =>
    have hscan := scanned_signed 64 v.le_toInt v.toInt_lt (by have := v.le_toInt; have := v.toInt_lt; omega)
    simp only [put_arg, scalarText, Scalar.type, hscan]
    simp
  | _uchar v =>
    have hscan := scanned_unsigned 8 v.toNat_lt (by have := v.toNat_lt; omega)
    simp only [put_arg, scalarText, Scalar.type, hscan]
    simp
  | _nr_uint2 v =>
    have hscan := scanned_unsigned 16 v.toNat_lt (by have := v.toNat_lt; omega)
    simp only [put_arg, scalarText, Scalar.type, hscan]
    simp
  | _nr_uint4 v =>
    have hscan := scanned_unsigned 32 v.toNat_lt (by have := v.toNat_lt; omega)
    simp only [put_arg, scalarText, Scalar.type, hscan]
    simp
  | _nr_uint8 v =>
    have hscan := scanned_unsigned 64 v.toNat_lt (by have := v.toNat_lt; omega)
    simp only [put_arg, scalarText, Scalar.type, hscan]
    simp

/-- Blocks of bytes are never stored. -/
theorem put_not_bytes {type : NR_REG_TYPE} {arg : Arg} (hne : content ≠ []) (h : put_arg env type content = some (some arg)) :
    arg.type ≠ .BYTES := by
  obtain ⟨rfl, -⟩ := put_arg_type h
  intro hbytes
  rw [hbytes] at h
  unfold put_arg at h
  dsimp only at h
  rw [if_neg hne] at h
  split at h <;> cases h

/-- What a page says of a body says, as a body, the same again. -/
theorem put_arg_again {name : Bytes} {type : NR_REG_TYPE} {arg : Arg} (hd : type ≠ .DOUBLE) (hne : content ≠ [])
    (h : put_arg env type content = some (some arg)) : put_arg env type (textFor env name arg) = some (some arg) := by
  obtain ⟨rfl, -⟩ := put_arg_type h
  cases arg with
  | scalar v => exact put_arg_scalar hd
  | registry => rfl
  | bytes b => exact absurd rfl (put_not_bytes hne h)
  | string b =>
    have hstring : put_arg env .STRING content = some (some (.string b)) := h
    have hsame : content = b := by
      unfold put_arg at hstring
      dsimp only at hstring
      split at hstring
      · injection hstring with hstring
        injection hstring with hstring
        injection hstring
      · cases hstring
    subst hsame
    exact hstring

end Nrappkit.Web
