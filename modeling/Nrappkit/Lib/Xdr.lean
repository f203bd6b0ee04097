import Mathlib.Algebra.Group.Nat.Defs
import Nrappkit.Lib.Buffer
/-!
# External data representation

A filter writes the values of a type and reads them back. It comes with the
values it carries, for which reading what was written gives the value and
leaves what follows, so a filter that is put together from others has its round
trip with it.

Everything on the wire is in units of four bytes, the highest byte first; a
string or an array comes with its length before it.
-/

namespace Lib

structure Xdr (α : Type) where
  encode : α → List UInt8
  /-- The value, and the bytes behind it. -/
  decode : List UInt8 → Option (α × List UInt8)
  /-- The values that are carried. -/
  Carries : α → Prop
  decode_encode : ∀ a rest, Carries a → decode (encode a ++ rest) = some (a, rest)

namespace Xdr

variable {α β : Type}

/-! ## Putting filters together -/

def void : Xdr Unit where
  encode _ := []
  decode bs := some ((), bs)
  Carries _ := True
  decode_encode _ _ _ := rfl

/-- One value behind the other. -/
def seq (x : Xdr α) (y : Xdr β) : Xdr (α × β) where
  encode p := x.encode p.1 ++ y.encode p.2
  decode bs := (x.decode bs).bind fun p => (y.decode p.2).map fun q => ((p.1, q.1), q.2)
  Carries p := x.Carries p.1 ∧ y.Carries p.2
  decode_encode := by
    rintro ⟨a, b⟩ rest ⟨ha, hb⟩
    rw [List.append_assoc, x.decode_encode a _ ha, Option.bind_some, y.decode_encode b rest hb]
    rfl

/-- A type whose values travel as those of another. -/
def conv (x : Xdr α) (f : α → β) (g : β → α) : Xdr β where
  encode b := x.encode (g b)
  decode bs := (x.decode bs).map fun p => (f p.1, p.2)
  Carries b := x.Carries (g b) ∧ f (g b) = b
  decode_encode := by
    rintro b rest ⟨hb, hfg⟩
    rw [x.decode_encode _ _ hb, Option.map_some, hfg]

/-! ## Numbers -/

/-- `xdr_u_int` -/
def u_int : Xdr UInt32 where
  encode u := [24, 16, 8, 0].map fun k => UInt8.ofNat (u.toNat / 2 ^ k)
  decode
    | b₃ :: b₂ :: b₁ :: b₀ :: bs =>
      some (UInt32.ofNat (b₃.toNat * 2 ^ 24 + b₂.toNat * 2 ^ 16 + b₁.toNat * 2 ^ 8 + b₀.toNat), bs)
    | _ => none
  Carries _ := True
  decode_encode u rest _ := by
    have hu := u.toNat_lt
    simp only [List.map_cons, List.map_nil, List.cons_append, List.nil_append, Option.some.injEq, Prod.mk.injEq, and_true]
    rw [← UInt32.toNat_inj, UInt32.toNat_ofNat']
    simp only [UInt8.toNat_ofNat']
    omega

/-- `xdr_u_hyper`: the higher half first. -/
def u_hyper : Xdr UInt64 :=
  (u_int.seq u_int).conv (fun p => UInt64.ofNat (p.1.toNat * 2 ^ 32 + p.2.toNat))
    (fun u => (UInt32.ofNat (u.toNat / 2 ^ 32), UInt32.ofNat u.toNat))

theorem u_int_carries (u : UInt32) : u_int.Carries u := trivial

theorem u_hyper_carries (u : UInt64) : u_hyper.Carries u := by
  refine ⟨⟨trivial, trivial⟩, ?_⟩
  have hu := u.toNat_lt
  rw [← UInt64.toNat_inj, UInt64.toNat_ofNat']
  simp only [UInt32.toNat_ofNat']
  omega

/-- `xdr_int` -/
def int : Xdr Int32 := u_int.conv UInt32.toInt32 Int32.toUInt32

/-- `xdr_hyper` -/
def hyper : Xdr Int64 := u_hyper.conv UInt64.toInt64 Int64.toUInt64

theorem int_carries (i : Int32) : int.Carries i := ⟨u_int_carries _, rfl⟩

theorem hyper_carries (i : Int64) : hyper.Carries i := ⟨u_hyper_carries _, rfl⟩

/-- `xdr_char`: as an `int`. -/
def char : Xdr Int8 := int.conv Int32.toInt8 Int8.toInt32

/-- `xdr_u_char` -/
def u_char : Xdr UInt8 := u_int.conv UInt32.toUInt8 UInt8.toUInt32

/-- `xdr_int16_t` -/
def int16_t : Xdr Int16 := int.conv Int32.toInt16 Int16.toInt32

/-- `xdr_u_int16_t` -/
def u_int16_t : Xdr UInt16 := u_int.conv UInt32.toUInt16 UInt16.toUInt32

theorem char_carries (c : Int8) : char.Carries c := ⟨int_carries _, by simp⟩

theorem u_char_carries (c : UInt8) : u_char.Carries c := ⟨u_int_carries _, by simp⟩

theorem int16_t_carries (i : Int16) : int16_t.Carries i := ⟨int_carries _, by simp⟩

theorem u_int16_t_carries (u : UInt16) : u_int16_t.Carries u := ⟨u_int_carries _, by simp⟩

/-! ## Strings and arrays -/

/-- The length goes before the values, as an `unsigned int`. -/
theorem decode_length {n : Nat} (h : n < 2 ^ 32) (rest : List UInt8) :
    u_int.decode (u_int.encode (UInt32.ofNat n) ++ rest) = some (UInt32.ofNat n, rest) ∧ (UInt32.ofNat n).toNat = n :=
  ⟨u_int.decode_encode _ rest trivial, by rw [UInt32.toNat_ofNat', Nat.mod_eq_of_lt h]⟩

/-- What is missing to the next unit. -/
def padding (n : Nat) : Nat := (4 - n % 4) % 4

/-- `xdr_bytes` -/
def bytes : Xdr (List UInt8) where
  encode b := u_int.encode (UInt32.ofNat b.length) ++ (b ++ List.replicate (padding b.length) 0)
  decode bs := (u_int.decode bs).bind fun p =>
    if p.1.toNat + padding p.1.toNat ≤ p.2.length then
      some (p.2.take p.1.toNat, p.2.drop (p.1.toNat + padding p.1.toNat))
    else none
  Carries b := b.length < 2 ^ 32
  decode_encode b rest hb := by
    obtain ⟨hdec, hlen⟩ := decode_length hb (b ++ List.replicate (padding b.length) 0 ++ rest)
    have hsize : (b ++ List.replicate (padding b.length) 0).length = b.length + padding b.length := by
      rw [List.length_append, List.length_replicate]
    rw [List.append_assoc, hdec, Option.bind_some]
    dsimp only
    rw [hlen, if_pos (by rw [List.length_append, hsize]; exact Nat.le_add_right _ _), ← hsize, List.drop_left,
      List.append_assoc, List.take_left]

/-- `xdr_string`: the terminator does not travel. What is read has to leave room
for one, and ends at its first zero. -/
def string : Xdr (List UInt8) where
  encode b := bytes.encode b
  decode bs := (bytes.decode bs).bind fun p =>
    if p.1.length + 1 < 2 ^ 32 then some (p.1.takeWhile (· ≠ 0), p.2) else none
  Carries b := 0 ∉ b ∧ b.length + 1 < 2 ^ 32
  decode_encode := by
    rintro b rest ⟨h0, hlen⟩
    have hwhole : b.takeWhile (· ≠ 0) = b :=
      List.takeWhile_eq_self_iff.2 fun c hc => decide_eq_true fun he => h0 (he ▸ hc)
    rw [bytes.decode_encode b rest (Nat.lt_of_succ_lt hlen), Option.bind_some]
    dsimp only
    rw [if_pos hlen, hwhole]

/-- What is read ends at its first zero. -/
theorem string_decode_no_zero {bs b rest : List UInt8} (h : string.decode bs = some (b, rest)) :
    0 ∉ b ∧ b.length + 1 < 2 ^ 32 := by
  obtain ⟨p, -, h⟩ := Option.bind_eq_some_iff.1 h
  split at h
  · rename_i hlen
    cases h
    refine ⟨fun h0 => ?_, Nat.lt_of_le_of_lt (Nat.succ_le_succ (List.takeWhile_prefix _).length_le) hlen⟩
    simpa using List.mem_takeWhile_imp h0
  · cases h

/-- `n` values, one behind the other. -/
def decode_n (x : Xdr α) : Nat → List UInt8 → Option (List α × List UInt8)
  | 0, bs => some ([], bs)
  | n + 1, bs => (x.decode bs).bind fun p => (decode_n x n p.2).map fun q => (p.1 :: q.1, q.2)

theorem decode_n_flatMap (x : Xdr α) (l : List α) (rest : List UInt8) (h : ∀ a ∈ l, x.Carries a) :
    x.decode_n l.length (l.flatMap x.encode ++ rest) = some (l, rest) := by
  induction l with
  | nil => rfl
  | cons a l ih =>
    rw [List.forall_mem_cons] at h
    rw [List.length_cons, decode_n, List.flatMap_cons, List.append_assoc, x.decode_encode a _ h.1, Option.bind_some,
      ih h.2]
    rfl

/-- `xdr_array` -/
def array (x : Xdr α) : Xdr (List α) where
  encode l := u_int.encode (UInt32.ofNat l.length) ++ l.flatMap x.encode
  decode bs := (u_int.decode bs).bind fun p => x.decode_n p.1.toNat p.2
  Carries l := l.length < 2 ^ 32 ∧ ∀ a ∈ l, x.Carries a
  decode_encode := by
    rintro l rest ⟨hlen, hl⟩
    obtain ⟨hdec, hn⟩ := decode_length hlen (l.flatMap x.encode ++ rest)
    rw [List.append_assoc, hdec, Option.bind_some]
    dsimp only
    rw [hn, x.decode_n_flatMap l rest hl]

example : string.encode [102, 111, 111, 46, 97] = [0, 0, 0, 5, 102, 111, 111, 46, 97, 0, 0, 0] := by decide

end Xdr

end Lib
