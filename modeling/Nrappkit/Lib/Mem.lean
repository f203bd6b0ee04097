import Mathlib.Tactic.Common
import Mathlib.Data.List.GetD
/-!
# Memory as bytes

A memory gives each address a byte. A block is read and written as a list; what
is written is read back, and nothing outside the block changes.
-/

namespace Lib

abbrev Mem := Int → UInt8

def Mem.read (m : Mem) (a : Int) (n : Nat) : List UInt8 := (List.range n).map fun i : Nat => m (a + i)

def Mem.write (m : Mem) (a : Int) (bs : List UInt8) : Mem :=
  fun x => if a ≤ x ∧ x < a + bs.length then bs.getD (x - a).toNat 0 else m x

variable {m m' : Mem} {a b : Int} {bs : List UInt8}

theorem Mem.write_outside {x : Int} (h : x < a ∨ a + bs.length ≤ x) : m.write a bs x = m x := by
  unfold Mem.write
  rw [if_neg (by omega)]

theorem Mem.read_congr {n : Nat} (h : ∀ x, a ≤ x → x < a + n → m' x = m x) : m'.read a n = m.read a n := by
  refine List.map_congr_left fun i hi => ?_
  have hi : i < n := List.mem_range.1 hi
  exact h _ (by omega) (by omega)

/-- Writing a block leaves one that is apart from it as it was. -/
theorem Mem.read_write_apart {n : Nat} (h : b + n ≤ a ∨ a + bs.length ≤ b) : (m.write a bs).read b n = m.read b n :=
  Mem.read_congr fun x h₁ h₂ => Mem.write_outside (by omega)

/-- A part of what was written. -/
theorem Mem.read_write_within {k n : Nat} (h : k + n ≤ bs.length) :
    (m.write a bs).read (a + k) n = (bs.drop k).take n := by
  apply List.ext_getElem
  · rw [Mem.read, List.length_map, List.length_range, List.length_take, List.length_drop]
    omega
  · intro i h₁ h₂
    rw [Mem.read, List.length_map, List.length_range] at h₁
    have hin : a ≤ a + k + i ∧ a + k + i < a + bs.length := by omega
    have hoff : (a + k + i - a).toNat = k + i := by omega
    simp only [Mem.read, List.getElem_map, List.getElem_range, Mem.write, if_pos hin, hoff, List.getElem_take,
      List.getElem_drop]
    rw [List.getD_eq_getElem]

theorem Mem.read_write_same : (m.write a bs).read a bs.length = bs := by
  have h : 0 + bs.length ≤ bs.length := by omega
  have hread := Mem.read_write_within (m := m) (a := a) h
  simpa using hread

theorem Mem.read_append (n k : Nat) : m.read a (n + k) = m.read a n ++ m.read (a + n) k := by
  simp only [Mem.read, List.range_add, List.map_append, List.map_map]
  congr 1
  apply List.map_congr_left
  intro i _
  simp only [Function.comp_apply]
  congr 1
  omega

theorem Mem.read_length {n : Nat} : (m.read a n).length = n := by rw [Mem.read, List.length_map, List.length_range]

theorem Mem.drop_read (n j : Nat) : (m.read a n).drop j = m.read (a + j) (n - j) := by
  apply List.ext_getElem
  · rw [List.length_drop, Mem.read_length, Mem.read_length]
  · intro i h₁ h₂
    have hidx : a + (j + i : Nat) = a + j + i := by omega
    simp only [Mem.read, List.getElem_drop, List.getElem_map, List.getElem_range, hidx]

theorem Mem.take_read {n j : Nat} (h : j ≤ n) : (m.read a n).take j = m.read a j := by
  obtain ⟨k, rfl⟩ := Nat.exists_eq_add_of_le h
  rw [Mem.read_append, List.take_left' Mem.read_length]

/-- Writing what is there. -/
theorem Mem.write_read (n : Nat) : m.write a (m.read a n) = m := by
  funext x
  have hlen : (m.read a n).length = n := by simp [Mem.read]
  by_cases hx : a ≤ x ∧ x < a + (m.read a n).length
  · obtain ⟨i, rfl⟩ : ∃ i : Nat, x = a + i := ⟨(x - a).toNat, by omega⟩
    have hoff : (a + i - a).toNat = i := by omega
    have hi : i < n := by omega
    rw [Mem.write, if_pos hx, hoff, Mem.read]
    simp [List.getD_eq_getElem?_getD, hi]
  · apply Mem.write_outside
    omega

/-- A write that goes on where the bytes `bs` of another end, over the rest of
it. -/
theorem Mem.write_write {rest bs' : List UInt8} (h : rest.length ≤ bs'.length) :
    (m.write a (bs ++ rest)).write (a + bs.length) bs' = m.write a (bs ++ bs') := by
  funext x
  by_cases hx : a + bs.length ≤ x ∧ x < a + bs.length + bs'.length
  · have hoff : (x - a).toNat = bs.length + (x - (a + bs.length)).toNat := by omega
    rw [Mem.write, if_pos hx, Mem.write, if_pos (by rw [List.length_append]; omega), hoff]
    simp [List.getD_eq_getElem?_getD, List.getElem?_append_right]
  · rw [Mem.write, if_neg hx, Mem.write, Mem.write, List.length_append, List.length_append]
    by_cases hin : a ≤ x ∧ x < a + bs.length
    · have hlt : (x - a).toNat < bs.length := by omega
      rw [if_pos (by omega), if_pos (by omega)]
      simp [List.getD_eq_getElem?_getD, List.getElem?_append_left hlt]
    · rw [if_neg (by omega), if_neg (by omega)]

theorem Mem.write_nil : m.write a [] = m := Mem.write_read 0

theorem Mem.write_append {bs' : List UInt8} : (m.write a bs).write (a + bs.length) bs' = m.write a (bs ++ bs') := by
  have h : (m.write a (bs ++ [])).write (a + bs.length) bs' = m.write a (bs ++ bs') := Mem.write_write (Nat.zero_le _)
  rwa [List.append_nil] at h

/-- A block that goes on behind what was written into it. -/
theorem Mem.read_write_append {n : Nat} (h : bs.length ≤ n) :
    (m.write a bs).read a n = bs ++ m.read (a + bs.length) (n - bs.length) := by
  obtain ⟨k, rfl⟩ := Nat.exists_eq_add_of_le h
  rw [Mem.read_append, Mem.read_write_same, Nat.add_sub_cancel_left, Mem.read_write_apart (by omega)]

/-! ## Words -/

/-- The bytes of a word, least significant first. -/
def le32 (v : UInt32) : List UInt8 :=
  [UInt8.ofNat v.toNat, UInt8.ofNat (v.toNat / 256), UInt8.ofNat (v.toNat / 65536), UInt8.ofNat (v.toNat / 16777216)]

def Mem.read32 (m : Mem) (a : Int) : UInt32 :=
  UInt32.ofNat ((m a).toNat + 256 * (m (a + 1)).toNat + 65536 * (m (a + 2)).toNat + 16777216 * (m (a + 3)).toNat)

def Mem.write32 (m : Mem) (a : Int) (v : UInt32) : Mem := m.write a (le32 v)

theorem Mem.write32_outside {x : Int} {v : UInt32} (h : x < a ∨ a + 4 ≤ x) : m.write32 a v x = m x :=
  Mem.write_outside h

theorem Mem.read32_congr (h : ∀ x, a ≤ x → x < a + 4 → m' x = m x) : m'.read32 a = m.read32 a := by
  unfold Mem.read32
  rw [h a (by omega) (by omega), h (a + 1) (by omega) (by omega), h (a + 2) (by omega) (by omega),
    h (a + 3) (by omega) (by omega)]

theorem Mem.read32_write32 (v : UInt32) : (m.write32 a v).read32 a = v := by
  have hbyte : ∀ (k : Nat) (x : Int), x = a + k → k < 4 → m.write32 a v x = (le32 v).getD k 0 := by
    rintro k x rfl hk
    have hlen : (le32 v).length = 4 := rfl
    have hoff : (a + k - a).toNat = k := by omega
    rw [Mem.write32, Mem.write, if_pos (by omega), hoff]
  have hv : v.toNat < 4294967296 := v.toNat_lt
  apply UInt32.toNat_inj.1
  unfold Mem.read32
  rw [hbyte 0 a (by omega) (by omega), hbyte 1 (a + 1) (by omega) (by omega),
    hbyte 2 (a + 2) (by omega) (by omega), hbyte 3 (a + 3) (by omega) (by omega)]
  simp only [le32, List.getD_cons_zero, List.getD_cons_succ, UInt8.toNat_ofNat', UInt32.toNat_ofNat']
  omega

end Lib
