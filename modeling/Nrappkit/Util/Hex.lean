import Nrappkit.Common
import Nrappkit.Lib.Hex
import Nrappkit.Lib.Mem
/-!
# Hexadecimal

The two hex coders of `hex.c`, each with a table of its own, and the older
writer `nr_bin2hex` of `util.c`. What is written goes to a memory, what is read
is a list of bytes.

`char` is signed, and the reader takes the character as the index of its table.
A read outside a table is undefined.
-/
open Lib

namespace Nrappkit.Util

/-! ## The tables -/

def bin2hex_map : List Bytes := List.map str [
  "00", "01", "02", "03", "04", "05", "06", "07", "08", "09", "0a", "0b", "0c", "0d", "0e", "0f",
  "10", "11", "12", "13", "14", "15", "16", "17", "18", "19", "1a", "1b", "1c", "1d", "1e", "1f",
  "20", "21", "22", "23", "24", "25", "26", "27", "28", "29", "2a", "2b", "2c", "2d", "2e", "2f",
  "30", "31", "32", "33", "34", "35", "36", "37", "38", "39", "3a", "3b", "3c", "3d", "3e", "3f",
  "40", "41", "42", "43", "44", "45", "46", "47", "48", "49", "4a", "4b", "4c", "4d", "4e", "4f",
  "50", "51", "52", "53", "54", "55", "56", "57", "58", "59", "5a", "5b", "5c", "5d", "5e", "5f",
  "60", "61", "62", "63", "64", "65", "66", "67", "68", "69", "6a", "6b", "6c", "6d", "6e", "6f",
  "70", "71", "72", "73", "74", "75", "76", "77", "78", "79", "7a", "7b", "7c", "7d", "7e", "7f",
  "80", "81", "82", "83", "84", "85", "86", "87", "88", "89", "8a", "8b", "8c", "8d", "8e", "8f",
  "90", "91", "92", "93", "94", "95", "96", "97", "98", "99", "9a", "9b", "9c", "9d", "9e", "9f",
  "a0", "a1", "a2", "a3", "a4", "a5", "a6", "a7", "a8", "a9", "aa", "ab", "ac", "ad", "ae", "af",
  "b0", "b1", "b2", "b3", "b4", "b5", "b6", "b7", "b8", "b9", "ba", "bb", "bc", "bd", "be", "bf",
  "c0", "c1", "c2", "c3", "c4", "c5", "c6", "c7", "c8", "c9", "ca", "cb", "cc", "cd", "ce", "cf",
  "d0", "d1", "d2", "d3", "d4", "d5", "d6", "d7", "d8", "d9", "da", "db", "dc", "dd", "de", "df",
  "e0", "e1", "e2", "e3", "e4", "e5", "e6", "e7", "e8", "e9", "ea", "eb", "ec", "ed", "ee", "ef",
  "f0", "f1", "f2", "f3", "f4", "f5", "f6", "f7", "f8", "f9", "fa", "fb", "fc", "fd", "fe", "ff"]

def hex2bin_map : List Int32 := [
  -1, -1, -1, -1, -1, -1, -1, -1, -1, -1, -1, -1, -1, -1, -1, -1,
  -1, -1, -1, -1, -1, -1, -1, -1, -1, -1, -1, -1, -1, -1, -1, -1,
  -1, -1, -1, -1, -1, -1, -1, -1, -1, -1, -1, -1, -1, -1, -1, -1,
  0, 1, 2, 3, 4, 5, 6, 7, 8, 9, -1, -1, -1, -1, -1, -1,
  -1, 10, 11, 12, 13, 14, 15, -1, -1, -1, -1, -1, -1, -1, -1, -1,
  -1, -1, -1, -1, -1, -1, -1, -1, -1, -1, -1, -1, -1, -1, -1, -1,
  -1, 10, 11, 12, 13, 14, 15, -1, -1, -1, -1, -1, -1, -1, -1, -1,
  -1, -1, -1, -1, -1, -1, -1, -1, -1, -1, -1, -1, -1, -1, -1, -1,
  -1, -1, -1, -1, -1, -1, -1, -1, -1, -1, -1, -1, -1, -1, -1, -1,
  -1, -1, -1, -1, -1, -1, -1, -1, -1, -1, -1, -1, -1, -1, -1, -1,
  -1, -1, -1, -1, -1, -1, -1, -1, -1, -1, -1, -1, -1, -1, -1, -1,
  -1, -1, -1, -1, -1, -1, -1, -1, -1, -1, -1, -1, -1, -1, -1, -1,
  -1, -1, -1, -1, -1, -1, -1, -1, -1, -1, -1, -1, -1, -1, -1, -1,
  -1, -1, -1, -1, -1, -1, -1, -1, -1, -1, -1, -1, -1, -1, -1, -1,
  -1, -1, -1, -1, -1, -1, -1, -1, -1, -1, -1, -1, -1, -1, -1, -1,
  -1, -1, -1, -1, -1, -1, -1, -1, -1, -1, -1, -1, -1, -1, -1, -1]

/-! ## The functions -/

/-- `hex2bin_map[(int)c]` of a `char`. -/
def hex2bin (c : UInt8) : Option Int32 :=
  let i := c.toInt8.toInt
  if i < 0 then none else hex2bin_map[i.toNat]?

def nbin2hex_loop : Mem → Bytes → Int → Option Mem
  | m, [], _ => some m
  | m, b :: bin, hex => do
    let row ← bin2hex_map[b.toNat]?
    let m := m.write hex [← row[0]?]
    let m := m.write (hex + 1) [← row[1]?]
    nbin2hex_loop m bin (hex + 2)

/-- What is written, and `*len`. -/
def nr_nbin2hex (m : Mem) (bin : Bytes) (hex : Int) (size : UInt64) : Option (Except Status Nat × Mem) := do
  let hexlen := 2 * bin.length % 18446744073709551616
  if size.toNat < hexlen then some (.error .R_BAD_ARGS, m)
  else
    let m ← nbin2hex_loop m bin hex
    let m := if hexlen + 1 ≤ size.toNat then m.write (hex + 2 * bin.length) [0] else m
    some (.ok hexlen, m)

def nhex2bin_loop : Mem → Bytes → Int → Option (Except Status Unit × Mem)
  | m, c₁ :: c₂ :: hex, bin => do
    let h1 ← hex2bin c₁
    let h2 ← hex2bin c₂
    if h1 = -1 ∨ h2 = -1 then some (.error .R_BAD_ARGS, m)
    else nhex2bin_loop (m.write bin [(h1 <<< 4 ||| h2).toUInt32.toUInt8]) hex (bin + 1)
  | m, _, _ => some (.ok (), m)

/-- What is written, and `*len`. -/
def nr_nhex2bin (m : Mem) (hex : Bytes) (bin : Int) (size : UInt64) : Option (Except Status Nat × Mem) := do
  let binlen := hex.length / 2
  if hex.length % 2 ≠ 0 then some (.error .R_BAD_ARGS, m)
  else if size.toNat < binlen then some (.error .R_BAD_ARGS, m)
  else
    let (r, m) ← nhex2bin_loop m hex bin
    some (r.map fun _ => binlen, m)

/-- `"%.2x"`: at least two digits. -/
def sprintf_2x (c : UInt8) : Bytes :=
  let digits := numeral 16 c.toNat
  List.replicate (2 - digits.length) 48 ++ digits

/-- `sprintf` puts a NUL behind the digits, which the next round writes over. -/
def nr_bin2hex : Mem → Bytes → Int32 → Int → Option Mem
  | m, bin, len, out =>
    if len = 0 then some m
    else match bin with
      | [] => none
      | c :: bin => nr_bin2hex (m.write out (sprintf_2x c ++ [0])) bin (len - 1) (out + 2)

/-! ## The tables are right -/

theorem bin2hex_map_getElem (b : UInt8) : bin2hex_map[b.toNat]? = some (hexByte b) := by
  have htable : bin2hex_map = (List.range 256).map fun n => hexByte (UInt8.ofNat n) := by decide +kernel
  have hb : b.toNat < 256 := b.toNat_lt
  rw [htable, List.getElem?_map, List.getElem?_range hb, Option.map_some, UInt8.ofNat_toNat]

theorem sprintf_2x_eq (b : UInt8) : sprintf_2x b = hexByte b := by
  apply byte_all (P := fun b => sprintf_2x b = hexByte b)
  decide +kernel

/-- A character above 127 is a negative index. -/
theorem hex2bin_eq (c : UInt8) :
    hex2bin c = if c < 128 then some (if isHexDigit c then Int32.ofNat (digitVal c) else -1) else none := by
  apply byte_all
    (P := fun c => hex2bin c = if c < 128 then some (if isHexDigit c then Int32.ofNat (digitVal c) else -1) else none)
  decide +kernel

/-! ## The writers -/

variable {m : Mem} {bin hex bs : Bytes} {c hi lo : UInt8} {a : Int} {size : UInt64}

theorem nbin2hex_loop_spec (m : Mem) (bin : Bytes) (a : Int) :
    nbin2hex_loop m bin a = some (m.write a (encodeHex bin)) := by
  induction bin generalizing m a with
  | nil => exact congrArg some Mem.write_nil.symm
  | cons b bin ih =>
    have hbyte : (m.write a [digitChar (b.toNat / 16)]).write (a + 1) [digitChar (b.toNat % 16)] = m.write a (hexByte b) :=
      Mem.write_append
    have hrest : (m.write a (hexByte b)).write (a + 2) (encodeHex bin) = m.write a (encodeHex (b :: bin)) := by
      rw [encodeHex_cons]
      exact Mem.write_append
    rw [nbin2hex_loop, bin2hex_map_getElem, ← hrest, ← hbyte]
    exact ih _ _

theorem nr_nbin2hex_spec (m : Mem) (a : Int) (h : 2 * bin.length ≤ size.toNat) :
    ∃ m', nr_nbin2hex m bin a size = some (.ok (2 * bin.length), m') ∧ m'.read a (2 * bin.length) = encodeHex bin := by
  have hlt : 2 * bin.length < 18446744073709551616 := Nat.lt_of_le_of_lt h size.toNat_lt
  have hread : (m.write a (encodeHex bin)).read a (2 * bin.length) = encodeHex bin := by
    rw [← encodeHex_length bin]
    exact Mem.read_write_same
  unfold nr_nbin2hex
  rw [Nat.mod_eq_of_lt hlt]
  simp only [if_neg (Nat.not_lt.2 h), nbin2hex_loop_spec, Option.bind_eq_bind, Option.bind_some]
  refine ⟨_, rfl, ?_⟩
  split
  · rw [Mem.read_write_apart (.inl (by push_cast; omega)), hread]
  · exact hread

theorem int_pred {len : Int32} {n : Nat} (h : len.toInt = n + 1) : len ≠ 0 ∧ (len - 1).toInt = n := by
  constructor
  · rintro rfl
    rw [Int32.toInt_zero] at h
    omega
  · have h1 : (1 : Int32).toInt = 1 := rfl
    have hle : (1 : Int32) ≤ len := by
      rw [Int32.le_iff_toInt_le]
      omega
    rw [Int32.toInt_sub_of_le len 1 (by decide) hle]
    omega

/-- The last NUL stays. -/
theorem nr_bin2hex_cons (m : Mem) (b : UInt8) (bin : Bytes) (len : Int32) (a : Int) (h : len.toInt = bin.length + 1) :
    nr_bin2hex m (b :: bin) len a = some (m.write a (encodeHex (b :: bin) ++ [0])) := by
  obtain ⟨h0, hpred⟩ := int_pred h
  rw [nr_bin2hex, if_neg h0, sprintf_2x_eq]
  induction bin generalizing m b len a with
  | nil =>
    have hlen : len - 1 = 0 := Int32.toInt_inj.1 hpred
    rw [nr_bin2hex, if_pos hlen]
    rfl
  | cons b' bin ih =>
    obtain ⟨h0, hpred'⟩ := int_pred hpred
    have hrest : (m.write a (hexByte b ++ [0])).write (a + 2) (encodeHex (b' :: bin) ++ [0]) =
        m.write a (hexByte b ++ (encodeHex (b' :: bin) ++ [0])) := by
      apply Mem.write_write
      simp
    rw [nr_bin2hex, if_neg h0, sprintf_2x_eq, ih _ _ _ _ hpred h0 hpred', hrest, encodeHex_cons b, List.append_assoc]

/-- The older writer writes the same digits. -/
theorem nr_bin2hex_spec (m : Mem) {len : Int32} (a : Int) (h : len.toInt = bin.length) :
    ∃ m', nr_bin2hex m bin len a = some m' ∧ m'.read a (2 * bin.length) = encodeHex bin := by
  cases bin with
  | nil =>
    have hlen : len = 0 := Int32.toInt_inj.1 h
    rw [nr_bin2hex, if_pos hlen]
    exact ⟨m, rfl, rfl⟩
  | cons b bin =>
    rw [nr_bin2hex_cons m b bin len a h]
    refine ⟨_, rfl, ?_⟩
    have hread : (m.write a (encodeHex (b :: bin) ++ [0])).read (a + (0 : Nat)) (encodeHex (b :: bin)).length =
        ((encodeHex (b :: bin) ++ [0]).drop 0).take (encodeHex (b :: bin)).length := Mem.read_write_within (by simp)
    rw [← encodeHex_length]
    simpa using hread

/-! ## The reader -/

def hex_digits : Bytes := str "0123456789abcdefABCDEF"

theorem isHexDigit_iff (c : UInt8) : isHexDigit c = true ↔ c ∈ hex_digits := by
  apply byte_all (P := fun c => isHexDigit c = true ↔ c ∈ hex_digits)
  decide +kernel

theorem digit_lt (h : isHexDigit c = true) : c < 128 := by
  revert h
  apply byte_all (P := fun c => isHexDigit c = true → c < 128)
  decide +kernel

/-- The value of a digit is not the mark of no digit. -/
theorem digit_ne_mark (h : isHexDigit c = true) : Int32.ofNat (digitVal c) ≠ -1 := by
  have hall : ∀ d : Fin 16, Int32.ofNat d ≠ -1 := by decide
  exact hall ⟨digitVal c, of_decide_eq_true h⟩

theorem shift_or_eq (hhi : isHexDigit hi = true) (hlo : isHexDigit lo = true) :
    (Int32.ofNat (digitVal hi) <<< 4 ||| Int32.ofNat (digitVal lo)).toUInt32.toUInt8 = byteOfHex hi lo := by
  have hall : ∀ d e : Fin 16, (Int32.ofNat d <<< 4 ||| Int32.ofNat e).toUInt32.toUInt8 = UInt8.ofNat (16 * d + e) := by
    decide +kernel
  exact hall ⟨digitVal hi, of_decide_eq_true hhi⟩ ⟨digitVal lo, of_decide_eq_true hlo⟩

/-- What a round does with two characters. -/
theorem nhex2bin_loop_cons (m : Mem) (hi lo : UInt8) (hex : Bytes) (a : Int) :
    nhex2bin_loop m (hi :: lo :: hex) a =
      if hi < 128 ∧ lo < 128 then
        if isHexDigit hi && isHexDigit lo then nhex2bin_loop (m.write a [byteOfHex hi lo]) hex (a + 1)
        else some (.error .R_BAD_ARGS, m)
      else none := by
  rw [nhex2bin_loop, hex2bin_eq hi, hex2bin_eq lo]
  by_cases hhi : hi < 128
  · by_cases hlo : lo < 128
    · have hin : hi < 128 ∧ lo < 128 := ⟨hhi, hlo⟩
      simp only [if_pos hhi, if_pos hlo, if_pos hin, Option.bind_eq_bind, Option.bind_some]
      by_cases dhi : isHexDigit hi = true
      · by_cases dlo : isHexDigit lo = true
        · have hmark := not_or.2 ⟨digit_ne_mark dhi, digit_ne_mark dlo⟩
          rw [if_pos dhi, if_pos dlo, if_neg hmark, shift_or_eq dhi dlo, dhi, dlo]
          rfl
        · rw [if_neg dlo, if_pos (.inr rfl), Bool.eq_false_iff.2 dlo, Bool.and_false]
          rfl
      · rw [if_neg dhi, if_pos (.inl rfl), Bool.eq_false_iff.2 dhi, Bool.false_and]
        rfl
    · rw [if_pos hhi, if_neg hlo, if_neg (mt And.right hlo)]
      rfl
  · rw [if_neg hhi, if_neg (mt And.left hhi)]
    rfl

theorem nhex2bin_loop_spec (m : Mem) (a : Int) (h : decodeHex hex = some bs) :
    nhex2bin_loop m hex a = some (.ok (), m.write a bs) := by
  fun_induction decodeHex hex generalizing bs m a with
  | case1 =>
    cases h
    rw [nhex2bin_loop, Mem.write_nil]
    simp
  | case2 c => cases h
  | case3 hi lo l hd ih =>
    obtain ⟨bs, hbs, rfl⟩ := Option.map_eq_some_iff.1 h
    obtain ⟨hhi, hlo⟩ := Bool.and_eq_true_iff.1 hd
    have hrest : (m.write a [byteOfHex hi lo]).write (a + 1) bs = m.write a (byteOfHex hi lo :: bs) := Mem.write_append
    rw [nhex2bin_loop_cons, if_pos ⟨digit_lt hhi, digit_lt hlo⟩, if_pos hd, ih _ _ hbs, hrest]
  | case4 => cases h

/-- Digits are read whatever room is left behind them. -/
theorem nr_nhex2bin_spec (m : Mem) (a : Int) (h : decodeHex hex = some bs) (hsize : bs.length ≤ size.toNat) :
    nr_nhex2bin m hex a size = some (.ok bs.length, m.write a bs) := by
  have hlen := decodeHex_length h
  have heven : ¬ hex.length % 2 ≠ 0 := by omega
  have hhalf : hex.length / 2 = bs.length := by omega
  unfold nr_nhex2bin
  rw [if_neg heven, hhalf, if_neg (Nat.not_lt.2 hsize), nhex2bin_loop_spec m a h]
  rfl

/-- The two coders undo each other, and both writers write the same digits. -/
theorem hex_roundtrip :
    (∀ (m : Mem) (bin : Bytes) (hex : Int) (size : UInt64), 2 * bin.length ≤ size.toNat →
      ∃ m' digits, nr_nbin2hex m bin hex size = some (.ok (2 * bin.length), m') ∧
        m'.read hex (2 * bin.length) = digits ∧ (∀ c ∈ digits, c ∈ hex_digits ∧ lowerCase c = c) ∧
        (∀ (m : Mem) (len : Int32) (out : Int), len.toInt = bin.length →
          ∃ m', nr_bin2hex m bin len out = some m' ∧ m'.read out (2 * bin.length) = digits) ∧
        ∀ (m : Mem) (out : Int) (size : UInt64), bin.length ≤ size.toNat →
          ∃ m', nr_nhex2bin m digits out size = some (.ok bin.length, m') ∧ m'.read out bin.length = bin) ∧
    ∀ (m : Mem) (hex : Bytes) (bin : Int) (size : UInt64), hex.length % 2 = 0 → (∀ c ∈ hex, c ∈ hex_digits) →
      hex.length / 2 ≤ size.toNat →
      ∃ m' bytes, nr_nhex2bin m hex bin size = some (.ok (hex.length / 2), m') ∧ m'.read bin (hex.length / 2) = bytes ∧
        ∀ (m : Mem) (out : Int) (size : UInt64), hex.length ≤ size.toNat →
          ∃ m', nr_nbin2hex m bytes out size = some (.ok hex.length, m') ∧
            m'.read out hex.length = hex.map lowerCase := by
  constructor
  · intro m bin hex size hsize
    obtain ⟨m', hrun, hread⟩ := nr_nbin2hex_spec m hex hsize
    refine ⟨m', _, hrun, hread, fun c hc => ?_, fun m len out hlen => nr_bin2hex_spec m out hlen, ?_⟩
    · obtain ⟨hdigit, hlower⟩ := encodeHex_lower hc
      exact ⟨(isHexDigit_iff c).1 hdigit, hlower⟩
    · intro m out size hsize
      exact ⟨_, nr_nhex2bin_spec m out (decodeHex_encodeHex bin) hsize, Mem.read_write_same⟩
  · intro m hex bin size heven hdigits hsize
    have hall : ∀ c ∈ hex, isHexDigit c = true := fun c hc => (isHexDigit_iff c).2 (hdigits c hc)
    obtain ⟨bs, hbs⟩ := Option.isSome_iff_exists.1 ((decodeHex_isSome hex).2 ⟨heven, hall⟩)
    have hlen := decodeHex_length hbs
    have hhalf : hex.length / 2 = bs.length := by omega
    rw [hhalf] at hsize ⊢
    refine ⟨_, bs, nr_nhex2bin_spec m bin hbs hsize, Mem.read_write_same, fun m out size hroom => ?_⟩
    rw [hlen] at hroom ⊢
    rw [← encodeHex_decodeHex hbs]
    exact nr_nbin2hex_spec m out hroom

/-! ## What the reader refuses -/

/-- The first two characters that are not two digits have one above 127. -/
def HighBitReached (hex : Bytes) : Prop :=
  ∃ pre hi lo rest, hex = pre ++ hi :: lo :: rest ∧ pre.length % 2 = 0 ∧ (∀ c ∈ pre, c ∈ hex_digits) ∧ (128 ≤ hi ∨ 128 ≤ lo)

theorem highBitReached_short (h : hex.length < 2) : ¬ HighBitReached hex := by
  rintro ⟨pre, hi, lo, rest, rfl, -⟩
  rw [List.length_append, List.length_cons, List.length_cons] at h
  omega

theorem highBitReached_cons : HighBitReached (hi :: lo :: hex) ↔
    (128 ≤ hi ∨ 128 ≤ lo) ∨ (hi ∈ hex_digits ∧ lo ∈ hex_digits) ∧ HighBitReached hex := by
  constructor
  · rintro ⟨pre, c₁, c₂, rest, heq, heven, hdigits, hhigh⟩
    match pre with
    | [] =>
      obtain ⟨rfl, rfl, rfl⟩ : hi = c₁ ∧ lo = c₂ ∧ hex = rest := by simpa using heq
      exact .inl hhigh
    | [_] => cases heven
    | d₁ :: d₂ :: pre =>
      obtain ⟨rfl, rfl, rfl⟩ : hi = d₁ ∧ lo = d₂ ∧ hex = pre ++ c₁ :: c₂ :: rest := by simpa using heq
      obtain ⟨hd₁, hd₂, hdigits⟩ : hi ∈ hex_digits ∧ lo ∈ hex_digits ∧ ∀ c ∈ pre, c ∈ hex_digits := by simpa using hdigits
      have heven : pre.length % 2 = 0 := by
        rw [List.length_cons, List.length_cons] at heven
        omega
      exact .inr ⟨⟨hd₁, hd₂⟩, pre, c₁, c₂, rest, rfl, heven, hdigits, hhigh⟩
  · rintro (hhigh | ⟨⟨hd₁, hd₂⟩, pre, c₁, c₂, rest, rfl, heven, hdigits, hhigh⟩)
    · exact ⟨[], hi, lo, hex, rfl, rfl, by simp, hhigh⟩
    · refine ⟨hi :: lo :: pre, c₁, c₂, rest, rfl, ?_, ?_, hhigh⟩
      · rw [List.length_cons, List.length_cons]
        omega
      · simp only [List.forall_mem_cons]
        exact ⟨hd₁, hd₂, hdigits⟩

/-- Such characters are looked up outside the table, and all others in it. -/
theorem nhex2bin_loop_none (m : Mem) (hex : Bytes) (a : Int) : nhex2bin_loop m hex a = none ↔ HighBitReached hex := by
  fun_induction decodeHex hex generalizing m a with
  | case1 => simp [nhex2bin_loop, highBitReached_short]
  | case2 c => simp [nhex2bin_loop, highBitReached_short]
  | case3 hi lo l hd ih =>
    obtain ⟨hhi, hlo⟩ := Bool.and_eq_true_iff.1 hd
    have hlow : ¬ (128 ≤ hi ∨ 128 ≤ lo) := by
      rw [not_or, UInt8.not_le, UInt8.not_le]
      exact ⟨digit_lt hhi, digit_lt hlo⟩
    have hdigits : hi ∈ hex_digits ∧ lo ∈ hex_digits := ⟨(isHexDigit_iff hi).1 hhi, (isHexDigit_iff lo).1 hlo⟩
    rw [nhex2bin_loop_cons, if_pos ⟨digit_lt hhi, digit_lt hlo⟩, if_pos hd, ih, highBitReached_cons, or_iff_right hlow,
      and_iff_right hdigits]
  | case4 hi lo l hd =>
    have hnot : ¬ (hi ∈ hex_digits ∧ lo ∈ hex_digits) := by
      rwa [← isHexDigit_iff, ← isHexDigit_iff, ← Bool.and_eq_true_iff]
    rw [nhex2bin_loop_cons, if_neg hd, highBitReached_cons, or_iff_left (mt And.left hnot), ← UInt8.not_lt,
      ← UInt8.not_lt, ← not_and_or]
    simp

/-- Characters that are looked up in the table and are not all digits are
refused. -/
theorem nhex2bin_loop_refuses {r : Except Status Unit} {m' : Mem} (hrun : nhex2bin_loop m hex a = some (r, m'))
    (heven : hex.length % 2 = 0) (h : decodeHex hex = none) : r = .error .R_BAD_ARGS := by
  fun_induction decodeHex hex generalizing m a with
  | case1 => cases h
  | case2 c => cases heven
  | case3 hi lo l hd ih =>
    obtain ⟨hhi, hlo⟩ := Bool.and_eq_true_iff.1 hd
    rw [nhex2bin_loop_cons, if_pos ⟨digit_lt hhi, digit_lt hlo⟩, if_pos hd] at hrun
    apply ih hrun
    · rw [List.length_cons, List.length_cons] at heven
      omega
    · exact Option.map_eq_none_iff.1 h
  | case4 hi lo l hd =>
    rw [nhex2bin_loop_cons, if_neg hd] at hrun
    split at hrun
    · cases hrun
      rfl
    · cases hrun

/-- Digits in pairs, that fit. -/
def FitsHex (hex : Bytes) (size : UInt64) : Prop :=
  hex.length % 2 = 0 ∧ hex.length / 2 ≤ size.toNat ∧ ∀ c ∈ hex, c ∈ hex_digits

/-- The reader stays in its table, and tells digits in pairs that fit from all
else. -/
def TellsHex (m : Mem) (hex : Bytes) (bin : Int) (size : UInt64) : Prop :=
  ∃ r m', nr_nhex2bin m hex bin size = some (r, m') ∧ (FitsHex hex size → r = .ok (hex.length / 2)) ∧
    (¬ FitsHex hex size → r = .error .R_BAD_ARGS)

/-- What is even and fits is looked at to its end, or to what is no digit. -/
theorem tells_hex_fits (m : Mem) (bin : Int) (heven : hex.length % 2 = 0) (hsize : hex.length / 2 ≤ size.toNat) :
    TellsHex m hex bin size ↔ nhex2bin_loop m hex bin ≠ none := by
  unfold TellsHex nr_nhex2bin
  rw [if_neg (not_not.2 heven), if_neg (Nat.not_lt.2 hsize)]
  constructor
  · rintro ⟨r, m', hrun, -⟩ hnone
    rw [hnone] at hrun
    cases hrun
  · intro hsome
    obtain ⟨⟨r, m'⟩, hrun⟩ := Option.ne_none_iff_exists'.1 hsome
    have hdigits : (decodeHex hex).isSome = true ↔ FitsHex hex size := by
      simp [decodeHex_isSome, FitsHex, heven, hsize, isHexDigit_iff]
    refine ⟨r.map fun _ => hex.length / 2, m', ?_, fun hfits => ?_, fun hfits => ?_⟩
    · rw [hrun]
      rfl
    · obtain ⟨bs, hdec⟩ := Option.isSome_iff_exists.1 (hdigits.2 hfits)
      rw [nhex2bin_loop_spec m bin hdec] at hrun
      cases hrun
      rfl
    · have hdec : decodeHex hex = none := Option.not_isSome_iff_eq_none.1 (mt hdigits.1 hfits)
      rw [nhex2bin_loop_refuses hrun heven hdec]
      rfl

/-- It does unless characters that come in pairs and fit lead it to one above
127. -/
theorem tells_hex_iff (m : Mem) (hex : Bytes) (bin : Int) (size : UInt64) :
    TellsHex m hex bin size ↔ hex.length % 2 = 1 ∨ size.toNat < hex.length / 2 ∨ ¬ HighBitReached hex := by
  by_cases heven : hex.length % 2 = 0
  · by_cases hsize : hex.length / 2 ≤ size.toNat
    · have hodd : ¬ hex.length % 2 = 1 := by omega
      rw [tells_hex_fits m bin heven hsize, or_iff_right hodd, or_iff_right (Nat.not_lt.2 hsize), Ne, nhex2bin_loop_none]
    · apply iff_of_true
      · refine ⟨.error .R_BAD_ARGS, m, ?_, fun h => absurd h.2.1 hsize, fun _ => rfl⟩
        rw [nr_nhex2bin, if_neg (not_not.2 heven), if_pos (Nat.not_le.1 hsize)]
      · exact .inr (.inl (Nat.not_le.1 hsize))
  · apply iff_of_true
    · refine ⟨.error .R_BAD_ARGS, m, ?_, fun h => absurd h.1 heven, fun _ => rfl⟩
      rw [nr_nhex2bin, if_pos heven]
    · left
      omega

/-- A byte of a UTF-8 text. -/
theorem high_bit_read : ¬ TellsHex (fun _ => 0) [195, 48] 0 1 := by
  rintro ⟨r, m', h, -⟩
  cases h

end Nrappkit.Util
