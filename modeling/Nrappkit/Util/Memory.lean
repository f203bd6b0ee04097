import Nrappkit.Common
import Nrappkit.Lib.Runs
import Nrappkit.Lib.Totals
/-!
# Counted memory

`r_memory.c`, built without `SANITY_CHECKS`: a block has a header with its type
and its size, and two counters add up the sizes, over all blocks and for each
type. `size_t` has 64 bits, and the counters and the size in a header have 32.

What the C library answers to `malloc` and `realloc` is an input. `Counted` is
the invariant: the counters follow the sizes that the callers asked for, of the
blocks that are not freed. What the blocks of the other two calls hold is
`r_calloc_zero` and `r_strdup_copy`.
-/
open Lib

namespace Nrappkit.Util

/-! ## The functions -/

/-- `struct r_malloc_chunk_`, with the number of bytes the C library was asked
for. -/
structure r_malloc_chunk where
  total : UInt64
  type : UInt8
  size : UInt32
  memory : Nat → UInt8

def CHUNK_MEMORY_OFFSET : Nat := 8

def sizeof_r_malloc_chunk : UInt64 := 12

def CHUNK_SIZE (size : UInt64) : UInt64 := size + sizeof_r_malloc_chunk

/-- The chunk of a block that a caller has the address of. -/
def GET_CHUNK_ADDR_FROM_MEM_ADDR (memp : Ptr) : Option Ptr :=
  if CHUNK_MEMORY_OFFSET ≤ memp then some (memp - CHUNK_MEMORY_OFFSET) else none

structure Memory where
  heap : Heap r_malloc_chunk
  /-- Includes our header. -/
  mem_usage : UInt32
  /-- Does not include our header. -/
  mem_stats : UInt8 → UInt32

/-- What `malloc` or `realloc` returned: where the chunk is, and the bytes found
there that nobody wrote. -/
structure Grant where
  chunk : Ptr
  junk : Nat → UInt8

/-- `counter+=n`, where `n` is a `size_t`. -/
def plus (counter : UInt32) (n : UInt64) : UInt32 := (counter.toUInt64 + n).toUInt32

/-- `counter-=n`. -/
def minus (counter : UInt32) (n : UInt64) : UInt32 := (counter.toUInt64 - n).toUInt32

/-- Write a chunk; `none` takes it out of the heap. -/
def Memory.put (m : Memory) (c : Ptr) (chunk : Option r_malloc_chunk) : Memory :=
  { m with heap := Function.update m.heap c chunk }

/-- `mem_usage+=CHUNK_SIZE(size); mem_stats[type]+=size;` -/
def Memory.count (m : Memory) (type : UInt8) (size : UInt64) : Memory :=
  { m with
    mem_usage := plus m.mem_usage (CHUNK_SIZE size)
    mem_stats := Function.update m.mem_stats type (plus (m.mem_stats type) size) }

/-- `mem_usage-=CHUNK_SIZE(chunk->size); mem_stats[chunk->type]-=chunk->size;` -/
def Memory.uncount (m : Memory) (chunk : r_malloc_chunk) : Memory :=
  { m with
    mem_usage := minus m.mem_usage (CHUNK_SIZE chunk.size.toUInt64)
    mem_stats := Function.update m.mem_stats chunk.type (minus (m.mem_stats chunk.type) chunk.size.toUInt64) }

/-- For sizes close to `2 ^ 64` the sum `total` wraps around, and the header goes
past the end of the chunk; it is kept here like any other. -/
def r_malloc (m : Memory) (type : Int) (size : UInt64) (malloc : Option Grant) : Option (Option Ptr × Memory) :=
  match malloc with
  | none => some (none, m)
  | some g =>
    -- outside of `mem_stats`
    if type < 0 ∨ 255 < type then none
    else
      let chunk : r_malloc_chunk :=
        { total := CHUNK_SIZE size, type := UInt8.ofInt type, size := size.toUInt32, memory := g.junk }
      some (some (g.chunk + CHUNK_MEMORY_OFFSET), (m.count (UInt8.ofInt type) size).put g.chunk (some chunk))

/-- Write the first `n` bytes of a block; `none` when it has fewer. -/
def Memory.fill (m : Memory) (ptr : Ptr) (n : UInt64) (bytes : Nat → UInt8) : Option Memory := do
  let c ← GET_CHUNK_ADDR_FROM_MEM_ADDR ptr
  let chunk ← m.heap c
  if chunk.total.toNat < CHUNK_MEMORY_OFFSET + n.toNat then none
  else
    let memory := fun i => if i < n.toNat then bytes i else chunk.memory i
    some (m.put c (some { chunk with memory }))

def r_calloc (m : Memory) (type : Int) (number size : UInt64) (malloc : Option Grant) :
    Option (Option Ptr × Memory) := do
  let total := number * size
  match ← r_malloc m type total malloc with
  | (none, m) => some (none, m)
  | (some ret, m) =>
    let m ← m.fill ret size fun _ => 0
    some (some ret, m)

def r_free (m : Memory) (ptr : Option Ptr) : Option Memory :=
  match ptr with
  | none => some m
  | some ptr => do
    let c ← GET_CHUNK_ADDR_FROM_MEM_ADDR ptr
    let chunk ← m.heap c
    some ((m.uncount chunk).put c none)

def r_realloc (m : Memory) (ptr : Option Ptr) (size : UInt64) (realloc : Option Grant) :
    Option (Option Ptr × Memory) :=
  match ptr with
  | none => r_malloc m 255 size realloc
  | some ptr => do
    let c ← GET_CHUNK_ADDR_FROM_MEM_ADDR ptr
    let chunk ← m.heap c
    let total := CHUNK_SIZE size
    match realloc with
    -- of a chunk that is to have no bytes C does not say whether it is freed
    | none => if total = 0 then none else some (none, m)
    | some g =>
      let kept := min chunk.total.toNat total.toNat
      let memory := fun i => if CHUNK_MEMORY_OFFSET + i < kept then chunk.memory i else g.junk i
      let nchunk := { chunk with total, memory }
      let m := (m.uncount nchunk).put c none
      let nchunk := { nchunk with size := size.toUInt32 }
      some (some (g.chunk + CHUNK_MEMORY_OFFSET),
        (m.count nchunk.type nchunk.size.toUInt64).put g.chunk (some nchunk))

/-- `len`, an `int`, as a `size_t`. -/
def strdupLen (str : Bytes) : UInt64 := (Int32.ofNat (str.length + 1)).toInt64.toUInt64

def r_strdup (m : Memory) (str : Option Bytes) (malloc : Option Grant) : Option (Option Ptr × Memory) :=
  match str with
  | none => some (none, m)
  | some str => do
    match ← r_malloc m 0 (strdupLen str) malloc with
    | (none, m) => some (none, m)
    | (some nstr, m) =>
      -- past the end of the string
      if str.length + 1 < (strdupLen str).toNat then none
      else
        let m ← m.fill nstr (strdupLen str) fun i => (str ++ [0]).getD i 0
        some (some nstr, m)

/-! ## Calls -/

/-- A call, with what the C library answers to it. -/
inductive Call where
  | malloc (type : Int) (size : UInt64) (answer : Option Grant)
  | calloc (type : Int) (number size : UInt64) (answer : Option Grant)
  | strdup (str : Option Bytes) (answer : Option Grant)
  | realloc (ptr : Option Ptr) (size : UInt64) (answer : Option Grant)
  | free (ptr : Option Ptr)

def Call.run (m : Memory) : Call → Option (Option Ptr × Memory)
  | .malloc type size answer => r_malloc m type size answer
  | .calloc type number size answer => r_calloc m type number size answer
  | .strdup str answer => r_strdup m str answer
  | .realloc ptr size answer => r_realloc m ptr size answer
  | .free ptr => (r_free m ptr).map fun m => (none, m)

/-- The C library gives away no chunk that is in use. -/
def Call.allowed (m : Memory) : Call → Bool
  | .malloc _ _ g | .calloc _ _ _ g | .strdup _ g => g.all fun g => (m.heap g.chunk).isNone
  | .realloc ptr _ g => g.all fun g => (m.heap g.chunk).isNone || ptr = some (g.chunk + CHUNK_MEMORY_OFFSET)
  | .free _ => true

def Memory.initial : Memory where
  heap _ := none
  mem_usage := 0
  mem_stats _ := 0

/-! ## The blocks in use -/

/-- A block as its caller asked for it. -/
structure Asked where
  type : UInt8
  requested : Nat

abbrev Blocks := Finmap fun _ : Ptr => Asked

/-- What a block counts for in `mem_usage`. -/
def Asked.withHeader (b : Asked) : Nat := b.requested + sizeof_r_malloc_chunk.toNat

/-- What a block counts for in `mem_stats[t]`. -/
def Asked.ofType (t : UInt8) (b : Asked) : Nat := if b.type = t then b.requested else 0

def Blocks.drop (live : Blocks) (ptr : Option Ptr) : Blocks := ptr.elim live fun p => live.erase p

/-- The blocks in use after a call that returned `r`. One that is reallocated
keeps its type; out of nothing it gets type 255. -/
def Call.book (live : Blocks) (r : Option Ptr) : Call → Blocks
  | .malloc type size _ => r.elim live fun p => live.insert p ⟨UInt8.ofInt type, size.toNat⟩
  | .calloc type number size _ => r.elim live fun p => live.insert p ⟨UInt8.ofInt type, number.toNat * size.toNat⟩
  | .strdup str _ => r.elim live fun p => live.insert p ⟨0, (str.getD []).length + 1⟩
  | .realloc ptr size _ =>
    r.elim live fun p => (live.drop ptr).insert p ⟨(ptr.bind live.lookup).elim 255 Asked.type, size.toNat⟩
  | .free ptr => live.drop ptr

def liveAfter (evs : List (Call × Option Ptr)) : Blocks := evs.foldl (fun live e => e.1.book live e.2) ∅

/-! ## Counting in 32 bits -/

theorem plus_toNat (c : UInt32) (n : UInt64) : (plus c n).toNat ≡ c.toNat + n.toNat [MOD 2 ^ 32] := by
  rw [Nat.ModEq, plus, UInt64.toNat_toUInt32, UInt64.toNat_add, UInt32.toNat_toUInt64]
  omega

theorem minus_toNat (c : UInt32) (n : UInt64) : (minus c n).toNat + n.toNat ≡ c.toNat [MOD 2 ^ 32] := by
  have hn := n.toNat_lt
  rw [Nat.ModEq, minus, UInt64.toNat_toUInt32, UInt64.toNat_sub, UInt32.toNat_toUInt64]
  omega

theorem CHUNK_SIZE_toNat (n : UInt64) :
    (CHUNK_SIZE n).toNat ≡ n.toNat + sizeof_r_malloc_chunk.toNat [MOD 2 ^ 32] := by
  rw [Nat.ModEq, CHUNK_SIZE, UInt64.toNat_add]
  omega

theorem toUInt32_toNat (n : UInt64) : n.toUInt32.toNat ≡ n.toNat [MOD 2 ^ 32] := by
  rw [Nat.ModEq, UInt64.toNat_toUInt32, Nat.mod_mod]

theorem mul_toNat (a b : UInt64) : (a * b).toNat ≡ a.toNat * b.toNat [MOD 2 ^ 32] := by
  rw [Nat.ModEq, UInt64.toNat_mul]
  omega

theorem strdupLen_toNat (str : Bytes) :
    (strdupLen str).toNat =
      (str.length + 1) % 2 ^ 32 + if 2 ^ 31 ≤ (str.length + 1) % 2 ^ 32 then 2 ^ 64 - 2 ^ 32 else 0 := by
  have hext : (strdupLen str).toNat = (BitVec.signExtend 64 (BitVec.ofNat 32 (str.length + 1))).toNat := rfl
  rw [hext, BitVec.toNat_signExtend, BitVec.toNat_setWidth, BitVec.msb_eq_decide, BitVec.toNat_ofNat]
  simp only [decide_eq_true_eq]
  congr 1
  omega

/-- A string that is too long for an `int` still counts right: what is lost is a
multiple of `2 ^ 32`. -/
theorem strdupLen_modEq (str : Bytes) : (strdupLen str).toNat ≡ str.length + 1 [MOD 2 ^ 32] := by
  rw [strdupLen_toNat, Nat.ModEq]
  split
  · omega
  · omega

/-! ## What the heap holds -/

/-- The chunk of the block that a caller calls `p`. -/
def Memory.blockAt (m : Memory) (p : Ptr) : Option r_malloc_chunk := (GET_CHUNK_ADDR_FROM_MEM_ADDR p).bind m.heap

theorem GET_CHUNK_ADDR_iff {p c : Ptr} : GET_CHUNK_ADDR_FROM_MEM_ADDR p = some c ↔ p = c + CHUNK_MEMORY_OFFSET := by
  unfold GET_CHUNK_ADDR_FROM_MEM_ADDR
  split
  · rename_i hle
    rw [Option.some.injEq]
    exact Nat.sub_eq_iff_eq_add hle
  · rename_i hlt
    refine iff_of_false (by simp) ?_
    rintro rfl
    exact hlt (Nat.le_add_left _ c)

theorem blockAt_chunk (m : Memory) (c : Ptr) : m.blockAt (c + CHUNK_MEMORY_OFFSET) = m.heap c := by
  rw [Memory.blockAt, GET_CHUNK_ADDR_iff.2 rfl, Option.bind_some]

theorem blockAt_put (m : Memory) (c : Ptr) (chunk : Option r_malloc_chunk) :
    (m.put c chunk).blockAt (c + CHUNK_MEMORY_OFFSET) = chunk := by
  rw [blockAt_chunk]
  exact Function.update_self ..

theorem blockAt_put_of_ne {m : Memory} {c p : Ptr} {chunk : Option r_malloc_chunk} (hp : p ≠ c + CHUNK_MEMORY_OFFSET) :
    (m.put c chunk).blockAt p = m.blockAt p := by
  unfold Memory.blockAt
  cases hc : GET_CHUNK_ADDR_FROM_MEM_ADDR p with
  | none => rfl
  | some d =>
    have hdc : d ≠ c := by
      rintro rfl
      exact hp (GET_CHUNK_ADDR_iff.1 hc)
    exact Function.update_of_ne hdc _ _

/-- The header of a block has the type that was asked for, and the size as far
as it fits. -/
def Describes (chunk : r_malloc_chunk) (b : Asked) : Prop :=
  chunk.type = b.type ∧ chunk.size.toNat ≡ b.requested [MOD 2 ^ 32]

structure Counted (m : Memory) (live : Blocks) : Prop where
  held : ∀ p, Option.Rel Describes (m.blockAt p) (live.lookup p)
  usage : Follows (2 ^ 32) m.mem_usage.toNat Asked.withHeader live
  stats : ∀ t, Follows (2 ^ 32) (m.mem_stats t).toNat (Asked.ofType t) live

namespace Counted
variable {m m' : Memory} {live : Blocks}

theorem initial : Counted Memory.initial ∅ where
  held p := by
    have hnone : Memory.initial.blockAt p = none := by
      unfold Memory.blockAt
      cases GET_CHUNK_ADDR_FROM_MEM_ADDR p with
      | none => rfl
      | some c => rfl
    rw [hnone, Finmap.lookup_empty]
    exact .none
  usage := .empty
  stats _ := .empty

theorem lookup (h : Counted m live) {p : Ptr} {chunk : r_malloc_chunk} (hp : m.blockAt p = some chunk) :
    ∃ b, live.lookup p = some b ∧ Describes chunk b := by
  have hrel := h.held p
  rw [hp] at hrel
  cases hb : live.lookup p with
  | none =>
    rw [hb] at hrel
    cases hrel
  | some b =>
    rw [hb] at hrel
    cases hrel with
    | some hholds => exact ⟨b, rfl, hholds⟩

theorem fresh (h : Counted m live) {p : Ptr} (hp : m.blockAt p = none) : p ∉ live := by
  have hrel := h.held p
  rw [hp] at hrel
  rw [← Finmap.lookup_eq_none]
  cases hb : live.lookup p with
  | none => rfl
  | some b =>
    rw [hb] at hrel
    cases hrel

/-- A new block. Its size is counted as `n`, which may be rounded. -/
theorem add (h : Counted m live) {c : Ptr} (hc : m.heap c = none) {chunk : r_malloc_chunk} {b : Asked}
    (hb : Describes chunk b) {n : UInt64} (hn : n.toNat ≡ b.requested [MOD 2 ^ 32]) :
    Counted ((m.count b.type n).put c (some chunk)) (live.insert (c + CHUNK_MEMORY_OFFSET) b) where
  held p := by
    by_cases hp : p = c + CHUNK_MEMORY_OFFSET
    · rw [hp, blockAt_put, Finmap.lookup_insert]
      exact .some hb
    · rw [blockAt_put_of_ne hp, Finmap.lookup_insert_of_ne _ hp]
      exact h.held p
  usage := by
    have hnew := h.fresh ((blockAt_chunk m c).trans hc)
    have hsize := (CHUNK_SIZE_toNat n).trans (hn.add_right sizeof_r_malloc_chunk.toNat)
    exact h.usage.insert hnew (plus_toNat _ _) hsize
  stats := by
    have hnew := h.fresh ((blockAt_chunk m c).trans hc)
    have hstat : ((m.count b.type n).put c chunk).mem_stats b.type = plus (m.mem_stats b.type) n :=
      Function.update_self ..
    refine Follows.insert_class h.stats hnew ?_ hn fun t ht => ?_
    · rw [hstat]
      exact plus_toNat _ _
    · exact congrArg UInt32.toNat (Function.update_of_ne ht _ _)

/-- A block that goes: what its header says is counted back. -/
theorem remove (h : Counted m live) {c : Ptr} {chunk : r_malloc_chunk} (hc : m.heap c = some chunk) :
    Counted ((m.uncount chunk).put c none) (live.erase (c + CHUNK_MEMORY_OFFSET)) := by
  obtain ⟨b, hlookup, htype, hsize⟩ := h.lookup ((blockAt_chunk m c).trans hc)
  have hn : chunk.size.toUInt64.toNat ≡ b.requested [MOD 2 ^ 32] := by
    rw [UInt32.toNat_toUInt64]
    exact hsize
  refine ⟨fun p => ?_, ?_, ?_⟩
  · by_cases hp : p = c + CHUNK_MEMORY_OFFSET
    · rw [hp, blockAt_put, Finmap.lookup_erase]
      exact .none
    · rw [blockAt_put_of_ne hp, Finmap.lookup_erase_ne hp]
      exact h.held p
  · have hheader := (CHUNK_SIZE_toNat chunk.size.toUInt64).trans (hn.add_right sizeof_r_malloc_chunk.toNat)
    exact h.usage.erase hlookup (minus_toNat _ _) hheader
  · have hstat : ((m.uncount chunk).put c none).mem_stats b.type = minus (m.mem_stats b.type) chunk.size.toUInt64 := by
      rw [← htype]
      exact Function.update_self ..
    refine Follows.erase_class h.stats hlookup ?_ hn fun t ht => ?_
    · rw [hstat]
      exact minus_toNat _ _
    · exact congrArg UInt32.toNat (Function.update_of_ne (htype ▸ ht) _ _)

theorem fill (h : Counted m live) {ptr : Ptr} {n : UInt64} {bytes : Nat → UInt8} (hm : m.fill ptr n bytes = some m') :
    Counted m' live := by
  unfold Memory.fill at hm
  simp only [Option.bind_eq_bind, Option.bind_eq_some_iff] at hm
  obtain ⟨c, hptr, chunk, hc, hm⟩ := hm
  split at hm
  · cases hm
  · cases hm
    refine ⟨fun p => ?_, h.usage, h.stats⟩
    by_cases hp : p = c + CHUNK_MEMORY_OFFSET
    · obtain ⟨b, hlookup, hholds⟩ := h.lookup ((blockAt_chunk m c).trans hc)
      rw [hp, blockAt_put, hlookup]
      exact .some hholds
    · rw [blockAt_put_of_ne hp]
      exact h.held p

/-! ### One call -/

/-- `n` is what the caller wants, where that is more than a `size_t` can say. -/
theorem malloc (h : Counted m live) {type : Int} {size : UInt64} {answer : Option Grant} {n : Nat}
    (hn : size.toNat ≡ n [MOD 2 ^ 32]) (hfresh : answer.all (fun g => (m.heap g.chunk).isNone) = true) {r : Option Ptr}
    (hr : r_malloc m type size answer = some (r, m')) :
    Counted m' (r.elim live fun p => live.insert p ⟨UInt8.ofInt type, n⟩) := by
  cases answer with
  | none =>
    cases hr
    exact h
  | some g =>
    simp only [r_malloc] at hr
    split at hr
    · cases hr
    · cases hr
      exact h.add (b := ⟨UInt8.ofInt type, n⟩) (Option.isNone_iff_eq_none.1 hfresh)
        ⟨rfl, (toUInt32_toNat size).trans hn⟩ hn

theorem calloc (h : Counted m live) {type : Int} {number size : UInt64} {answer : Option Grant}
    (hfresh : answer.all (fun g => (m.heap g.chunk).isNone) = true) {r : Option Ptr}
    (hr : r_calloc m type number size answer = some (r, m')) :
    Counted m' (r.elim live fun p => live.insert p ⟨UInt8.ofInt type, number.toNat * size.toNat⟩) := by
  simp only [r_calloc, Option.bind_eq_bind, Option.bind_eq_some_iff, Prod.exists] at hr
  obtain ⟨r₁, m₁, hmalloc, hr⟩ := hr
  have h₁ := h.malloc (mul_toNat number size) hfresh hmalloc
  cases r₁ with
  | none =>
    cases hr
    exact h₁
  | some ret =>
    simp only [Option.bind_eq_some_iff] at hr
    obtain ⟨m₂, hfill, hr⟩ := hr
    cases hr
    exact h₁.fill hfill

theorem strdup (h : Counted m live) {str : Option Bytes} {answer : Option Grant}
    (hfresh : answer.all (fun g => (m.heap g.chunk).isNone) = true) {r : Option Ptr}
    (hr : r_strdup m str answer = some (r, m')) :
    Counted m' (r.elim live fun p => live.insert p ⟨0, (str.getD []).length + 1⟩) := by
  cases str with
  | none =>
    cases hr
    exact h
  | some str =>
    simp only [r_strdup, Option.bind_eq_bind, Option.bind_eq_some_iff, Prod.exists] at hr
    obtain ⟨r₁, m₁, hmalloc, hr⟩ := hr
    have h₁ := h.malloc (strdupLen_modEq str) hfresh hmalloc
    cases r₁ with
    | none =>
      cases hr
      exact h₁
    | some nstr =>
      simp only at hr
      split at hr
      · cases hr
      · simp only [Option.bind_eq_some_iff] at hr
        obtain ⟨m₂, hfill, hr⟩ := hr
        cases hr
        exact h₁.fill hfill

theorem free (h : Counted m live) {ptr : Option Ptr} (hm : r_free m ptr = some m') : Counted m' (live.drop ptr) := by
  cases ptr with
  | none =>
    cases hm
    exact h
  | some p =>
    simp only [r_free, Option.bind_eq_bind, Option.bind_eq_some_iff] at hm
    obtain ⟨c, hp, chunk, hc, hm⟩ := hm
    cases hm
    rw [GET_CHUNK_ADDR_iff.1 hp]
    exact h.remove hc

/-- The block is freed, and one of the same type comes in, where it was or
elsewhere. -/
theorem realloc (h : Counted m live) {ptr : Option Ptr} {size : UInt64} {answer : Option Grant}
    (hok : (Call.realloc ptr size answer).allowed m = true) {r : Option Ptr}
    (hr : r_realloc m ptr size answer = some (r, m')) : Counted m' ((Call.realloc ptr size answer).book live r) := by
  cases ptr with
  | none =>
    have hfresh : answer.all (fun g => (m.heap g.chunk).isNone) = true := by simpa [Call.allowed] using hok
    exact h.malloc rfl hfresh hr
  | some ptr =>
    simp only [r_realloc, Option.bind_eq_bind, Option.bind_eq_some_iff] at hr
    obtain ⟨c, hptr, chunk, hc, hr⟩ := hr
    obtain rfl := GET_CHUNK_ADDR_iff.1 hptr
    obtain ⟨b, hlookup, htype, -⟩ := h.lookup ((blockAt_chunk m c).trans hc)
    cases answer with
    | none =>
      simp only at hr
      split at hr
      · cases hr
      · cases hr
        exact h
    | some g =>
      cases hr
      have hfree := h.remove hc
      have hgone : ((m.uncount chunk).put c none).heap g.chunk = none := by
        by_cases hgc : g.chunk = c
        · rw [hgc]
          exact Function.update_self ..
        · have hnone : m.heap g.chunk = none := by
            simpa [Call.allowed, Ne.symm hgc] using hok
          exact (Function.update_of_ne hgc _ _).trans hnone
      have hsize := toUInt32_toNat size
      rw [← UInt32.toNat_toUInt64] at hsize
      have hbook : (Call.realloc (some (c + CHUNK_MEMORY_OFFSET)) size (some g)).book live
          (some (g.chunk + CHUNK_MEMORY_OFFSET)) =
          (live.erase (c + CHUNK_MEMORY_OFFSET)).insert (g.chunk + CHUNK_MEMORY_OFFSET) ⟨chunk.type, size.toNat⟩ := by
        simp [Call.book, Blocks.drop, hlookup, htype]
      rw [hbook]
      refine hfree.add (b := ⟨chunk.type, size.toNat⟩) hgone ?_ hsize
      exact ⟨rfl, toUInt32_toNat size⟩

theorem step (h : Counted m live) {c : Call} (hok : c.allowed m = true) {r : Option Ptr} (hr : c.run m = some (r, m')) :
    Counted m' (c.book live r) := by
  cases c with
  | malloc type size answer => exact h.malloc rfl hok hr
  | calloc type number size answer => exact h.calloc hok hr
  | strdup str answer => exact h.strdup hok hr
  | realloc ptr size answer => exact h.realloc hok hr
  | free ptr =>
    obtain ⟨m₁, hfree, hr⟩ := Option.map_eq_some_iff.1 hr
    cases hr
    exact h.free hfree

theorem types (h : Counted m live) (p : Ptr) :
    (m.blockAt p).map r_malloc_chunk.type = (live.lookup p).map Asked.type := by
  have hrel := h.held p
  generalize m.blockAt p = chunk? at hrel ⊢
  generalize live.lookup p = block? at hrel ⊢
  cases hrel with
  | none => rfl
  | some hholds => exact congrArg some hholds.1

theorem freed (h : Counted m live) (hfreed : ∀ p, m.blockAt p = none) : m.mem_usage = 0 ∧ ∀ t, m.mem_stats t = 0 := by
  have hempty : live = ∅ := by
    apply Finmap.ext_lookup
    intro p
    rw [Finmap.lookup_empty]
    exact Finmap.lookup_eq_none.2 (h.fresh (hfreed p))
  subst hempty
  refine ⟨?_, fun t => ?_⟩
  · exact UInt32.toNat_inj.1 (h.usage.eq_zero (UInt32.toNat_lt _))
  · exact UInt32.toNat_inj.1 ((h.stats t).eq_zero (UInt32.toNat_lt _))

end Counted

/-! ## Every run -/

/-- The runs of clients that use the blocks they got. -/
abbrev MemoryRun := Run Call.run (fun m c => c.allowed m) Memory.initial

variable {m m' : Memory}

theorem counted_run {evs : List (Call × Option Ptr)} (h : MemoryRun evs m) : Counted m (liveAfter evs) := by
  induction h with
  | nil => exact Counted.initial
  | snoc _ hok hr ih =>
    rw [liveAfter, List.foldl_append]
    exact ih.step hok hr

theorem blockAt_malloc {type : Int} {size : UInt64} {answer : Option Grant} {p : Ptr}
    (hr : r_malloc m type size answer = some (some p, m')) :
    ∃ chunk, m'.blockAt p = some chunk ∧ chunk.type = UInt8.ofInt type := by
  cases answer with
  | none => cases hr
  | some g =>
    simp only [r_malloc] at hr
    split at hr
    · cases hr
    · cases hr
      exact ⟨_, blockAt_put .., rfl⟩

/-- What `r_realloc` leaves in a block that it was given. -/
theorem blockAt_realloc {ptr p : Ptr} {size : UInt64} {answer : Option Grant}
    (hr : r_realloc m (some ptr) size answer = some (some p, m')) :
    ∃ chunk nchunk, m.blockAt ptr = some chunk ∧ m'.blockAt p = some nchunk ∧ nchunk.type = chunk.type ∧
      ∀ i, CHUNK_MEMORY_OFFSET + i < min chunk.total.toNat (CHUNK_SIZE size).toNat →
        nchunk.memory i = chunk.memory i := by
  simp only [r_realloc, Option.bind_eq_bind, Option.bind_eq_some_iff] at hr
  obtain ⟨c, hptr, chunk, hc, hr⟩ := hr
  have hchunk : m.blockAt ptr = some chunk := by rw [GET_CHUNK_ADDR_iff.1 hptr, blockAt_chunk, hc]
  cases answer with
  | none =>
    simp only at hr
    split at hr
    · cases hr
    · cases hr
  | some g =>
    cases hr
    exact ⟨chunk, _, hchunk, blockAt_put .., rfl, fun i hi => if_pos hi⟩

theorem r_realloc_type {ptr : Option Ptr} {size : UInt64} {answer : Option Grant} {p : Ptr}
    (hr : r_realloc m ptr size answer = some (some p, m')) :
    (m'.blockAt p).map r_malloc_chunk.type = ptr.elim (some 255) fun ptr => (m.blockAt ptr).map r_malloc_chunk.type := by
  cases ptr with
  | none =>
    obtain ⟨chunk, hp, htype⟩ := blockAt_malloc hr
    rw [hp, Option.map_some, htype]
    rfl
  | some ptr =>
    obtain ⟨chunk, nchunk, hptr, hp, htype, -⟩ := blockAt_realloc hr
    rw [Option.elim_some, hp, hptr, Option.map_some, Option.map_some, htype]

/-- In every run `mem_usage` is the sum of the sizes that were asked for, with
the headers, and each `mem_stats` that of its type, modulo `2 ^ 32` and over the
blocks in use. A block keeps its type, and with all blocks freed the counters
are zero. -/
theorem memory_conserved {evs : List (Call × Option Ptr)} (h : MemoryRun evs m) :
    m.mem_usage.toNat ≡ total Asked.withHeader (liveAfter evs) [MOD 2 ^ 32] ∧
      (∀ t, (m.mem_stats t).toNat ≡ total (Asked.ofType t) (liveAfter evs) [MOD 2 ^ 32]) ∧
      (∀ p, (m.blockAt p).map r_malloc_chunk.type = ((liveAfter evs).lookup p).map Asked.type) ∧
      (∀ ptr size answer p m', r_realloc m ptr size answer = some (some p, m') →
        (m'.blockAt p).map r_malloc_chunk.type =
          ptr.elim (some 255) fun ptr => (m.blockAt ptr).map r_malloc_chunk.type) ∧
      ((∀ p, m.blockAt p = none) → m.mem_usage = 0 ∧ ∀ t, m.mem_stats t = 0) := by
  have hc := counted_run h
  refine ⟨hc.usage, hc.stats, hc.types, fun ptr size answer p m' hr => r_realloc_type hr, fun hfreed => ?_⟩
  exact hc.freed hfreed

/-- A block of more than `2 ^ 32` bytes, a string, the block moved and made
longer, one out of nothing, one that is cleared, and the string freed. -/
def someCalls : List Call :=
  [.malloc 3 4294967301 (some ⟨1000, fun _ => 0⟩), .strdup (some [97, 98]) (some ⟨2000, fun _ => 0⟩),
    .realloc (some 1008) 8589934599 (some ⟨3000, fun _ => 0⟩), .realloc none 40 (some ⟨1000, fun _ => 0⟩),
    .calloc 9 1 100 (some ⟨4000, fun _ => 0⟩), .free (some 2008)]

theorem memory_conserved_calls :
    ∃ evs m, MemoryRun evs m ∧ m.mem_usage = 183 ∧ m.mem_stats 3 = 7 ∧ m.mem_stats 255 = 40 ∧
      m.mem_usage.toNat ≡ total Asked.withHeader (liveAfter evs) [MOD 2 ^ 32] := by
  have hsome : (exec Call.run (fun m c => c.allowed m) Memory.initial someCalls).isSome = true := by decide +kernel
  obtain ⟨evs, h⟩ := Run.final hsome
  exact ⟨evs, _, h, by decide +kernel, by decide +kernel, by decide +kernel, (memory_conserved h).1⟩

/-! ## What the blocks hold -/

theorem blockAt_fill {ptr : Ptr} {n : UInt64} {bytes : Nat → UInt8} (hm : m.fill ptr n bytes = some m') :
    ∃ chunk, m'.blockAt ptr = some chunk ∧ ∀ i < n.toNat, chunk.memory i = bytes i := by
  unfold Memory.fill at hm
  simp only [Option.bind_eq_bind, Option.bind_eq_some_iff] at hm
  obtain ⟨c, hptr, chunk, -, hm⟩ := hm
  split at hm
  · cases hm
  · cases hm
    rw [GET_CHUNK_ADDR_iff.1 hptr, blockAt_put]
    exact ⟨_, rfl, fun i hi => if_pos hi⟩

theorem r_calloc_zero {type : Int} {number size : UInt64} {answer : Option Grant} {ret : Ptr}
    (hr : r_calloc m type number size answer = some (some ret, m')) :
    ∃ chunk, m'.blockAt ret = some chunk ∧ ∀ i < size.toNat, chunk.memory i = 0 := by
  simp only [r_calloc, Option.bind_eq_bind, Option.bind_eq_some_iff, Prod.exists] at hr
  obtain ⟨r₁, m₁, -, hr⟩ := hr
  cases r₁ with
  | none => cases hr
  | some ret =>
    simp only [Option.bind_eq_some_iff] at hr
    obtain ⟨m₂, hfill, hr⟩ := hr
    cases hr
    exact blockAt_fill hfill

/-- The copy of a string, with its terminator. -/
theorem r_strdup_copy {str : Bytes} {answer : Option Grant} {nstr : Ptr}
    (hr : r_strdup m (some str) answer = some (some nstr, m')) (hlen : str.length + 1 < 2 ^ 31) :
    ∃ chunk, m'.blockAt nstr = some chunk ∧ ∀ i < str.length + 1, chunk.memory i = (str ++ [0]).getD i 0 := by
  have hfits : (strdupLen str).toNat = str.length + 1 := by
    rw [strdupLen_toNat, Nat.mod_eq_of_lt (by omega), if_neg (by omega), Nat.add_zero]
  simp only [r_strdup, Option.bind_eq_bind, Option.bind_eq_some_iff, Prod.exists] at hr
  obtain ⟨r₁, m₁, -, hr⟩ := hr
  cases r₁ with
  | none => cases hr
  | some nstr =>
    simp only at hr
    split at hr
    · cases hr
    · simp only [Option.bind_eq_some_iff] at hr
      obtain ⟨m₂, hfill, hr⟩ := hr
      cases hr
      rw [← hfits]
      exact blockAt_fill hfill

end Nrappkit.Util
