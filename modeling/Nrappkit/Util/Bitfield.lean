import Nrappkit.Common
import Mathlib.Data.Nat.Bitwise
import Mathlib.Data.Set.Insert
/-!
# `r_bitfield`

`r_bitfield.c`: a set of numbers as an array of words, which is to grow when a
bit behind its end is set. `len` is in words and `RMALLOC` in bytes. An access
behind the end of a block is undefined; what a new block holds is `junk`.

The array never grows: of what the resizing does, clearing the new words always
goes behind the end of the new block, which has `newlen` bytes.
-/

namespace Nrappkit.Util

/-! ## Blocks of words -/

/-- A block of `size` bytes. -/
structure Block where
  size : Nat
  word : Nat → UInt32

namespace Block

def read (b : Block) (i : Nat) : Option UInt32 := if 4 * i + 4 ≤ b.size then some (b.word i) else none

def write (b : Block) (i : Nat) (w : UInt32) : Option Block :=
  if 4 * i + 4 ≤ b.size then some { b with word := Function.update b.word i w } else none

/-- `memcpy` of `n` bytes, for whole words. -/
def memcpy (b src : Block) (n : Nat) : Option Block :=
  if n ≤ b.size ∧ n ≤ src.size then some { b with word := fun i => if 4 * i < n then src.word i else b.word i } else none

/-- `memset` of `n` bytes to 0 from the word `i` on, for whole words. -/
def clear (b : Block) (i n : Nat) : Option Block :=
  if 4 * i + n ≤ b.size then some { b with word := fun k => if i ≤ k ∧ 4 * k < 4 * i + n then 0 else b.word k } else none

end Block

/-! ## The functions -/

structure r_bitfield where
  data : Block
  len : UInt32
  base : UInt32

variable (junk : Nat → UInt32)

def r_bitfield_create (size : UInt32) : Option r_bitfield := do
  let num_words := size / 32 + if size % 32 = 0 then 0 else 1
  let data ← Block.clear ⟨(num_words * 4).toNat, junk⟩ 0 (4 * num_words).toNat
  some { data, len := num_words, base := 0 }

/-- `while(newlen<word) newlen*=2`, in at most `n` rounds. -/
def grow_loop : Nat → UInt32 → UInt32 → Option UInt32
  | n, newlen, word =>
    if newlen < word then
      match n with
      | 0 => none
      | n + 1 => grow_loop n (newlen * 2) word
    else some newlen

/-- The block that `r_bitfield_set` moves to; `tmp+set->len*4` counts words. -/
def resize (n : Nat) (set : r_bitfield) (word : UInt32) : Option Block := do
  let newlen ← grow_loop n set.len word
  let tmp ← Block.memcpy ⟨newlen.toNat, junk⟩ set.data (set.len * 4).toNat
  tmp.clear (set.len * 4).toNat ((newlen - set.len) * 4).toNat

/-- The growth loop may go round `n` times. -/
def r_bitfield_set (n : Nat) (set : r_bitfield) (bit : Int32) : Option (Status × r_bitfield) := do
  let word := (bit.toUInt32 - set.base) / 32
  let bbit := (bit.toUInt32 - set.base) % 32
  let data ← if word > set.len then resize junk n set word else some set.data
  let w ← data.read word.toNat
  let data ← data.write word.toNat (w ||| 1 <<< bbit)
  some (.ok, { set with data })

def r_bitfield_isset (set : r_bitfield) (bit : Int32) : Option UInt32 :=
  let word := (bit.toUInt32 - set.base) / 32
  let bbit := (bit.toUInt32 - set.base) % 32
  if bit.toUInt32 < set.base then some 0
  else if word > set.len then some 0
  else (set.data.read word.toNat).map fun w => w &&& 1 <<< bbit

/-! ## A set of numbers -/

inductive BitOp where
  | set (bit : Int32)
  | isset (bit : Int32)

def BitOp.bit : BitOp → Int32
  | .set bit => bit
  | .isset bit => bit

/-- The bits of the whole array are those of `s`. -/
def Represents (set : r_bitfield) (s : Set Nat) : Prop :=
  ∀ i < set.data.size / 4, ∀ j < 32, (set.data.word i).toNat.testBit j = true ↔ 32 * i + j ∈ s

/-- All calls are defined, every query says whether its bit was set, and after
each call that sets one the array holds the bits set so far and no others. -/
def Answers (n : Nat) : r_bitfield → Set Nat → List BitOp → Prop
  | _, _, [] => True
  | set, s, .set bit :: ops => ∃ set', r_bitfield_set junk n set bit = some (.ok, set') ∧
      Represents set' (insert bit.toInt.toNat s) ∧ Answers n set' (insert bit.toInt.toNat s) ops
  | set, s, .isset bit :: ops => ∃ r, r_bitfield_isset set bit = some r ∧ (r ≠ 0 ↔ bit.toInt.toNat ∈ s) ∧ Answers n set s ops

/-- Calls on a new bit field of this size: growing comes to an end, and the
answers are those of a set of numbers. -/
def IsBitSet (size : UInt32) (ops : List BitOp) : Prop :=
  ∃ n set, r_bitfield_create junk size = some set ∧ Represents set ∅ ∧ Answers junk n set ∅ ops

/-- A bit in one of the words that were allocated. -/
def words (size : UInt32) : Nat := (size.toNat + 31) / 32

/-- What a call may ask for: a bit is set in one of the words, and a query is not
for the word right behind them. -/
def BitOp.InArray (words : Nat) : BitOp → Prop
  | .set bit => bit.toInt.toNat / 32 < words
  | .isset bit => bit.toInt.toNat / 32 ≠ words

instance (words : Nat) : DecidablePred (BitOp.InArray words)
  | .set bit => inferInstanceAs (Decidable (bit.toInt.toNat / 32 < words))
  | .isset bit => inferInstanceAs (Decidable (bit.toInt.toNat / 32 ≠ words))

/-! ## Bits of a word -/

theorem one_shiftLeft_toNat {j : UInt32} (hj : j.toNat < 32) : ((1 : UInt32) <<< j).toNat = 2 ^ j.toNat := by
  rw [UInt32.toNat_shiftLeft, Nat.mod_eq_of_lt hj, UInt32.toNat_one, Nat.one_shiftLeft]
  exact Nat.mod_eq_of_lt (Nat.pow_lt_pow_right (by decide) hj)

theorem and_one_shiftLeft {w j : UInt32} (hj : j.toNat < 32) : w &&& 1 <<< j ≠ 0 ↔ w.toNat.testBit j.toNat = true := by
  rw [ne_eq, ← UInt32.toNat_inj, UInt32.toNat_and, one_shiftLeft_toNat hj, Nat.and_comm, Nat.two_pow_and]
  cases w.toNat.testBit j.toNat <;> simp

theorem testBit_or_one_shiftLeft {w j : UInt32} (hj : j.toNat < 32) (i : Nat) :
    (w ||| 1 <<< j).toNat.testBit i = true ↔ w.toNat.testBit i = true ∨ j.toNat = i := by
  rw [UInt32.toNat_or, one_shiftLeft_toNat hj, Nat.testBit_or, Nat.testBit_two_pow, Bool.or_eq_true, decide_eq_true_iff]

/-! ## Growing -/

/-- Doubling stops below twice the word that is needed. -/
theorem grow_loop_lt {n : Nat} {newlen word len : UInt32} (hw : word.toNat < 2 ^ 27) (hlt : newlen < word)
    (h : grow_loop n newlen word = some len) : word ≤ len ∧ len.toNat < 2 * word.toNat := by
  induction n generalizing newlen with
  | zero => simp [grow_loop, hlt] at h
  | succ n ih =>
    have hnew := UInt32.lt_iff_toNat_lt.1 hlt
    rw [grow_loop, if_pos hlt] at h
    by_cases hnext : newlen * 2 < word
    · exact ih hnext h
    · have hlen : len = newlen * 2 := by
        cases n <;> simp [grow_loop, hnext] at h <;> exact h.symm
      rw [hlen, UInt32.toNat_mul, show (2 : UInt32).toNat = 2 from rfl]
      exact ⟨UInt32.not_lt.1 hnext, by omega⟩

/-- From 0 on it never does. -/
theorem grow_loop_zero {n : Nat} {word : UInt32} (h : 0 < word) : grow_loop n 0 word = none := by
  induction n with
  | zero => simp [grow_loop, h]
  | succ n ih => rw [grow_loop, if_pos h, UInt32.zero_mul, ih]

/-- Clearing the new words goes behind the end of the new block. -/
theorem resize_undefined {n : Nat} {set : r_bitfield} {word : UInt32} (hw : word.toNat < 2 ^ 26) (h : set.len < word) :
    resize junk n set word = none := by
  by_cases h0 : set.len = 0
  · rw [resize, h0, grow_loop_zero (h0 ▸ h)]
    rfl
  · cases hgrow : grow_loop n set.len word with
    | none => rw [resize, hgrow]; rfl
    | some newlen =>
      obtain ⟨hle, hlt⟩ := grow_loop_lt (by omega) h hgrow
      have hlen := UInt32.lt_iff_toNat_lt.1 h
      have hle := UInt32.le_iff_toNat_le.1 hle
      have hpos : set.len.toNat ≠ 0 := fun hz => h0 (UInt32.toNat_inj.1 hz)
      have h4 : (set.len * 4).toNat = 4 * set.len.toNat := by
        rw [UInt32.toNat_mul, show (4 : UInt32).toNat = 4 from rfl]
        omega
      have hrest : ((newlen - set.len) * 4).toNat = 4 * (newlen.toNat - set.len.toNat) := by
        rw [UInt32.toNat_mul, UInt32.toNat_sub_of_le _ _ (UInt32.le_iff_toNat_le.2 (by omega)), show (4 : UInt32).toNat = 4 from rfl]
        omega
      rw [resize, hgrow]
      simp only [Block.memcpy, Option.bind_eq_bind, Option.bind_some]
      split
      · rw [Option.bind_some, Block.clear, if_neg]
        simp only [h4, hrest]
        omega
      · rfl

/-! ## One call -/

/-- The array has `n` words. -/
structure Sized (set : r_bitfield) (n : Nat) : Prop where
  base : set.base = 0
  len : set.len.toNat = n
  size : set.data.size = 4 * n

theorem create_spec (size : UInt32) :
    ∃ set, r_bitfield_create junk size = some set ∧ Sized set (words size) ∧ Represents set ∅ := by
  have hnum : (size / 32 + if size % 32 = 0 then 0 else 1).toNat = words size := by
    have hlt := size.toNat_lt
    have hmod : size % 32 = 0 ↔ size.toNat % 32 = 0 := by
      rw [← UInt32.toNat_inj, UInt32.toNat_mod]
      rfl
    rw [words]
    split
    · rename_i h
      have h := hmod.1 h
      rw [UInt32.add_zero, UInt32.toNat_div, show (32 : UInt32).toNat = 32 from rfl]
      omega
    · rename_i h
      have h := mt hmod.2 h
      rw [UInt32.toNat_add, UInt32.toNat_div, show (32 : UInt32).toNat = 32 from rfl, show (1 : UInt32).toNat = 1 from rfl]
      omega
  have hbytes : ((size / 32 + if size % 32 = 0 then 0 else 1) * 4).toNat = 4 * words size := by
    have hlt := size.toNat_lt
    rw [UInt32.toNat_mul, hnum, show (4 : UInt32).toNat = 4 from rfl, words]
    omega
  have hbytes' : (4 * (size / 32 + if size % 32 = 0 then 0 else 1)).toNat = 4 * words size := by
    rw [UInt32.mul_comm, hbytes]
  let data : Block := ⟨4 * words size, fun k => if 0 ≤ k ∧ 4 * k < 4 * words size then 0 else junk k⟩
  have hcreate : r_bitfield_create junk size = some ⟨data, size / 32 + if size % 32 = 0 then 0 else 1, 0⟩ := by
    simp only [r_bitfield_create, Block.clear, hbytes, hbytes', Nat.mul_zero, Nat.zero_add, Nat.le_refl, if_true,
      Option.bind_eq_bind, Option.bind_some, data]
  refine ⟨_, hcreate, ⟨rfl, hnum, rfl⟩, fun i hi j _ => ?_⟩
  have hi : i < 4 * words size / 4 := hi
  have hzero : data.word i = 0 := if_pos ⟨Nat.zero_le _, by omega⟩
  rw [hzero]
  simp

variable {junk}

theorem word_bit {set : r_bitfield} (h : set.base = 0) {bit : Int32} (hb : 0 ≤ bit) :
    ((bit.toUInt32 - set.base) / 32).toNat = bit.toInt.toNat / 32 ∧
      ((bit.toUInt32 - set.base) % 32).toNat = bit.toInt.toNat % 32 ∧ bit.toInt.toNat < 2 ^ 31 := by
  have hbit : bit.toUInt32.toNat = bit.toInt.toNat := Int32.toNat_toUInt32_of_le hb
  have hlt := bit.toInt_lt
  rw [h, UInt32.sub_zero, UInt32.toNat_div, UInt32.toNat_mod, hbit]
  exact ⟨rfl, rfl, by omega⟩

variable {set : r_bitfield} {n : Nat} {s : Set Nat} {bit : Int32}

/-- Setting a bit of the array. -/
theorem set_represents (hs : Sized set n) (hrep : Represents set s) (hb : 0 ≤ bit) (hlt : bit.toInt.toNat / 32 < n) (k : Nat) :
    ∃ set', r_bitfield_set junk k set bit = some (.ok, set') ∧ Sized set' n ∧ Represents set' (insert bit.toInt.toNat s) := by
  obtain ⟨hword, hbbit, -⟩ := word_bit hs.base hb
  have hin : 4 * (bit.toInt.toNat / 32) + 4 ≤ set.data.size := by rw [hs.size]; omega
  have hsmall : ¬ (bit.toUInt32 - set.base) / 32 > set.len := by
    rw [gt_iff_lt, UInt32.lt_iff_toNat_lt, hword, hs.len]
    omega
  have hj : ((bit.toUInt32 - set.base) % 32).toNat < 32 := by rw [hbbit]; exact Nat.mod_lt _ (by decide)
  let word := Function.update set.data.word (bit.toInt.toNat / 32)
    (set.data.word (bit.toInt.toNat / 32) ||| 1 <<< ((bit.toUInt32 - set.base) % 32))
  have hset : r_bitfield_set junk k set bit = some (.ok, { set with data := { set.data with word } }) := by
    simp only [r_bitfield_set, if_neg hsmall, Option.bind_eq_bind, Option.bind_some, Block.read, Block.write, hword,
      if_pos hin, word]
  refine ⟨_, hset, ⟨hs.base, hs.len, hs.size⟩, fun i hi j hjlt => ?_⟩
  have hold := hrep i hi j hjlt
  show (word i).toNat.testBit j = true ↔ _
  rw [Set.mem_insert_iff]
  by_cases hiw : i = bit.toInt.toNat / 32
  · subst hiw
    rw [show word _ = _ from Function.update_self .., testBit_or_one_shiftLeft hj, hold, hbbit, or_comm]
    have hsame : bit.toInt.toNat % 32 = j ↔ 32 * (bit.toInt.toNat / 32) + j = bit.toInt.toNat := by omega
    rw [hsame]
  · have hother : 32 * i + j ≠ bit.toInt.toNat := by omega
    rw [show word i = _ from Function.update_of_ne hiw .., hold, or_iff_right hother]

theorem set_undefined (hs : Sized set n) (hb : 0 ≤ bit) (hle : n ≤ bit.toInt.toNat / 32) (k : Nat) :
    r_bitfield_set junk k set bit = none := by
  obtain ⟨hword, -, hlt⟩ := word_bit hs.base hb
  by_cases hgrow : (bit.toUInt32 - set.base) / 32 > set.len
  · have hnone := resize_undefined junk (n := k) (by rw [hword]; omega) hgrow
    simp only [r_bitfield_set, if_pos hgrow, hnone]
    rfl
  · have hout : ¬ 4 * (bit.toInt.toNat / 32) + 4 ≤ set.data.size := by rw [hs.size]; omega
    simp only [r_bitfield_set, if_neg hgrow, Option.bind_eq_bind, Option.bind_some, Block.read, hword, if_neg hout]
    rfl

/-- A query is answered unless it is for the word behind the array. -/
theorem isset_iff (hs : Sized set n) (hrep : Represents set s) (hin : ∀ c ∈ s, c / 32 < n) (hb : 0 ≤ bit) :
    (∃ r, r_bitfield_isset set bit = some r ∧ (r ≠ 0 ↔ bit.toInt.toNat ∈ s)) ↔ bit.toInt.toNat / 32 ≠ n := by
  obtain ⟨hword, hbbit, -⟩ := word_bit hs.base hb
  have hbase : ¬ bit.toUInt32 < set.base := by rw [hs.base]; exact UInt32.not_lt_zero
  have hj : ((bit.toUInt32 - set.base) % 32).toNat < 32 := by rw [hbbit]; exact Nat.mod_lt _ (by decide)
  rcases Nat.lt_trichotomy (bit.toInt.toNat / 32) n with hlt | heq | hgt
  · have hsmall : ¬ (bit.toUInt32 - set.base) / 32 > set.len := by
      rw [gt_iff_lt, UInt32.lt_iff_toNat_lt, hword, hs.len]
      omega
    have hread : 4 * (bit.toInt.toNat / 32) + 4 ≤ set.data.size := by rw [hs.size]; omega
    have hr : r_bitfield_isset set bit =
        some (set.data.word (bit.toInt.toNat / 32) &&& 1 <<< ((bit.toUInt32 - set.base) % 32)) := by
      simp only [r_bitfield_isset, if_neg hbase, if_neg hsmall, Block.read, hword, if_pos hread, Option.map_some]
    refine iff_of_true ⟨_, hr, ?_⟩ (Nat.ne_of_lt hlt)
    rw [and_one_shiftLeft hj, hbbit, hrep _ (by rw [hs.size]; omega) _ (Nat.mod_lt _ (by decide)), Nat.div_add_mod]
  · have hsmall : ¬ (bit.toUInt32 - set.base) / 32 > set.len := by
      rw [gt_iff_lt, UInt32.lt_iff_toNat_lt, hword, hs.len]
      omega
    have hread : ¬ 4 * (bit.toInt.toNat / 32) + 4 ≤ set.data.size := by rw [hs.size]; omega
    refine iff_of_false ?_ (not_not.2 heq)
    rintro ⟨r, hr, -⟩
    simp only [r_bitfield_isset, if_neg hbase, if_neg hsmall, Block.read, hword, if_neg hread] at hr
    cases hr
  · have hlarge : (bit.toUInt32 - set.base) / 32 > set.len := by
      rw [gt_iff_lt, UInt32.lt_iff_toNat_lt, hword, hs.len]
      exact hgt
    have hout : bit.toInt.toNat ∉ s := fun hmem => Nat.lt_asymm hgt (hin _ hmem)
    exact iff_of_true ⟨0, by simp only [r_bitfield_isset, if_neg hbase, if_pos hlarge], by simpa using hout⟩ (Nat.ne_of_gt hgt)

/-! ## Sequences of calls -/

theorem answers_iff (k : Nat) {ops : List BitOp} (hops : ∀ op ∈ ops, 0 ≤ op.bit) (hs : Sized set n) (hrep : Represents set s)
    (hin : ∀ c ∈ s, c / 32 < n) : Answers junk k set s ops ↔ ∀ op ∈ ops, op.InArray n := by
  induction ops generalizing set s with
  | nil => simp [Answers]
  | cons op ops ih =>
    have hops' : ∀ op ∈ ops, 0 ≤ op.bit := fun op hop => hops op (List.mem_cons_of_mem _ hop)
    rw [List.forall_mem_cons]
    cases op with
    | set bit =>
      have hb : 0 ≤ bit := hops (.set bit) (List.mem_cons_self ..)
      by_cases hlt : bit.toInt.toNat / 32 < n
      · obtain ⟨set', hset, hs', hrep'⟩ : ∃ set', r_bitfield_set junk k set bit = some (.ok, set') ∧ Sized set' n ∧
            Represents set' (insert bit.toInt.toNat s) := set_represents hs hrep hb hlt k
        have hin' : ∀ c ∈ insert bit.toInt.toNat s, c / 32 < n := Set.forall_mem_insert.2 ⟨hlt, hin⟩
        rw [BitOp.InArray, and_iff_right hlt, ← ih hops' hs' hrep' hin']
        constructor
        · rintro ⟨set₁, hset₁, -, hrest⟩
          rw [hset] at hset₁
          cases hset₁
          exact hrest
        · exact fun hrest => ⟨set', hset, hrep', hrest⟩
      · refine iff_of_false ?_ fun h => hlt h.1
        rintro ⟨set', hset, -⟩
        rw [set_undefined hs hb (Nat.not_lt.1 hlt)] at hset
        cases hset
    | isset bit =>
      have hb : 0 ≤ bit := hops (.isset bit) (List.mem_cons_self ..)
      rw [BitOp.InArray, ← isset_iff hs hrep hin hb, ← ih hops' hs hrep hin, Answers]
      constructor
      · rintro ⟨r, hr, hiff, hrest⟩
        exact ⟨⟨r, hr, hiff⟩, hrest⟩
      · rintro ⟨⟨r, hr, hiff⟩, hrest⟩
        exact ⟨r, hr, hiff, hrest⟩

/-- A bit field is a set of numbers as long as no bit is set behind its first
words, and no query is for the word right behind them. -/
theorem bit_set_iff (junk : Nat → UInt32) (size : UInt32) {ops : List BitOp} (hops : ∀ op ∈ ops, 0 ≤ op.bit) :
    IsBitSet junk size ops ↔ ∀ op ∈ ops, op.InArray (words size) := by
  obtain ⟨set, hcreate, hs, hrep⟩ := create_spec junk size
  have hiff : ∀ k, Answers junk k set ∅ ops ↔ ∀ op ∈ ops, op.InArray (words size) :=
    fun k => answers_iff k hops hs hrep fun c hc => absurd hc (Set.notMem_empty c)
  constructor
  · rintro ⟨k, set₁, hcreate₁, -, h⟩
    rw [hcreate] at hcreate₁
    cases hcreate₁
    exact (hiff k).1 h
  · exact fun h => ⟨0, set, hcreate, hrep, (hiff 0).2 h⟩

theorem bit_set_ten : IsBitSet (fun _ => 0) 10 [.set 3, .isset 3, .isset 70] :=
  (bit_set_iff (fun _ => 0) 10 (by decide)).2 (by decide)

/-- The first bit behind a field of 32 bits. -/
theorem first_bit_behind : ¬ IsBitSet (fun _ => 0) 32 [.set 32] := by
  rintro ⟨n, set, hcreate, -, set', hset, -⟩
  cases hcreate
  rw [set_undefined (n := 1) ⟨rfl, rfl, rfl⟩ (by decide) (by decide)] at hset
  cases hset

end Nrappkit.Util
