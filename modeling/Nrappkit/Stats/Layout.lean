import Nrappkit.Stats.Shm
import Mathlib.Data.List.TakeWhile
import Mathlib.Algebra.BigOperators.Group.List.Basic
import Mathlib.Algebra.Ring.Nat
/-!
# Where the records are

A record takes two units of the record type, and one more for each unit its
size has, whatever the rest: `span`. `Layout` says that the memory holds the
records of a list one behind the other.
-/
open Lib

namespace Nrappkit.Stats

/-- The distance from a record to the next one. -/
def span (r : Bytes × UInt32) : Nat := wrapperSize * (2 + r.2.toNat / wrapperSize)

/-- The address of record `i`. -/
def start (recs : List (Bytes × UInt32)) (i : Nat) : Int := FIRSTWRAPPER + ((recs.take i).map span).sum

section
variable {recs : List (Bytes × UInt32)} {i j : Nat}

theorem start_zero (recs : List (Bytes × UInt32)) : start recs 0 = FIRSTWRAPPER := by
  simp [start]

theorem start_succ (h : i < recs.length) : start recs (i + 1) = start recs i + span recs[i] := by
  unfold start
  rw [List.take_succ_eq_append_getElem h, List.map_append, List.sum_append]
  simp only [List.map_cons, List.map_nil, List.sum_cons, List.sum_nil, Nat.add_zero]
  omega

theorem start_mono (hij : i ≤ j) : start recs i ≤ start recs j := by
  unfold start
  have hsplit : recs.take j = recs.take i ++ (recs.take j).drop i := by
    have htake : (recs.take j).take i = recs.take i := by rw [List.take_take, Nat.min_eq_left hij]
    rw [← htake, List.take_append_drop]
  rw [hsplit, List.map_append, List.sum_append]
  omega

/-- A record does not reach the next one. -/
theorem start_apart (hi : i < recs.length) (hij : i < j) : start recs i + span recs[i] ≤ start recs j := by
  rw [← start_succ hi]
  exact start_mono hij

theorem start_append (recs more : List (Bytes × UInt32)) (h : i ≤ recs.length) : start (recs ++ more) i = start recs i := by
  rw [start, start, List.take_append_of_le_length h]

theorem first_le_start (recs : List (Bytes × UInt32)) (i : Nat) : FIRSTWRAPPER ≤ start recs i := by
  rw [← start_zero recs]
  exact start_mono (Nat.zero_le i)

/-- The header and the data are within the span. -/
theorem buffer_le_span (r : Bytes × UInt32) : bufferOffset + r.2.toNat ≤ span r := by
  unfold bufferOffset span wrapperSize
  omega

end

/-- The memory holds the records `recs`, with distinct names. -/
structure Layout (shm : Mem) (recs : List (Bytes × UInt32)) : Prop where
  count : (nshms shm).toNat = recs.length
  limit : recs.length ≤ NR_MAX_STATS_SHMS
  small : ∀ r ∈ recs, r.2.toNat < 2 ^ 31
  name : ∀ i (h : i < recs.length), cstr shm (start recs i) NR_MAX_STATS_NAME = some recs[i].1
  size : ∀ i (h : i < recs.length), shm.read32 (start recs i + sizeOffset) = recs[i].2
  distinct : (recs.map Prod.fst).Nodup

section
variable {shm shm' : Mem} {recs : List (Bytes × UInt32)}

theorem Layout.next (h : Layout shm recs) {i : Nat} (hi : i < recs.length) :
    NEXTWRAPPER shm (start recs i) = start recs (i + 1) := by
  have hsmall := h.small recs[i] (List.getElem_mem hi)
  have hspan : span recs[i] < 2 ^ 62 := by
    unfold span wrapperSize
    omega
  unfold NEXTWRAPPER
  rw [h.size i hi, start_succ hi, sizeT, if_pos hsmall]
  show _ + Int.bmod (span recs[i] : Nat) (2 ^ 64) = _
  rw [Int.bmod_eq_of_le (by omega) (by omega)]

theorem Layout.walk (h : Layout shm recs) {n i : Nat} (hn : i + n ≤ recs.length) :
    Stats.walk shm n (start recs i) = start recs (i + n) := by
  induction n generalizing i with
  | zero => rfl
  | succ n ih =>
    rw [Stats.walk, h.next (by omega), ih (by omega)]
    congr 1
    omega

/-- The free wrapper is behind the last record. -/
theorem Layout.free (h : Layout shm recs) : find_free_wrapper shm = start recs recs.length := by
  have hwalk := h.walk (n := recs.length) (i := 0) (by omega)
  rw [start_zero, Nat.zero_add] at hwalk
  rw [find_free_wrapper, h.count, hwalk]

theorem Layout.find_loop (h : Layout shm recs) (name : Bytes) {n i : Nat} (hn : i + n = recs.length) :
    (∀ j (hj : j < recs.length), i ≤ j → recs[j].1 = name → Stats.find_loop shm name n (start recs i) = some (start recs j)) ∧
      ((∀ j (hj : j < recs.length), i ≤ j → recs[j].1 ≠ name) → Stats.find_loop shm name n (start recs i) = none) := by
  induction n generalizing i with
  | zero => exact ⟨fun j hj hij => absurd hij (by omega), fun _ => rfl⟩
  | succ n ih =>
    have hi : i < recs.length := by omega
    obtain ⟨hfound, hnone⟩ := ih (i := i + 1) (by omega)
    rw [Stats.find_loop, h.name i hi, h.next hi]
    by_cases heq : recs[i].1 = name
    · refine ⟨fun j hj hij hname => ?_, fun hno => absurd heq (hno i hi (Nat.le_refl i))⟩
      -- names are distinct, so this is the record
      have hji : i = j := by
        have hinj := List.nodup_iff_injective_get.1 h.distinct
        have := @hinj ⟨i, by simpa using hi⟩ ⟨j, by simpa using hj⟩ (by simp [heq, hname])
        exact Fin.mk.inj this
      subst hji
      rw [if_pos (by rw [heq])]
    · rw [if_neg (by simpa using heq)]
      refine ⟨fun j hj hij hname => hfound j hj ?_ hname, fun hno => hnone fun j hj hij => hno j hj (by omega)⟩
      rcases Nat.lt_or_eq_of_le hij with hlt | rfl
      · exact hlt
      · exact absurd hname heq

/-- `find_stats` finds exactly the names there are, each at its record. -/
theorem Layout.find (h : Layout shm recs) {name : Bytes} {header : Int} :
    find_stats shm name = some header ↔ ∃ i, ∃ hi : i < recs.length, recs[i].1 = name ∧ header = start recs i := by
  have hloop := h.find_loop name (n := recs.length) (i := 0) (by omega)
  rw [start_zero] at hloop
  rw [find_stats, h.count]
  constructor
  · intro hf
    by_contra hno
    rw [hloop.2 fun j hj _ hname => hno ⟨j, hj, hname, ?_⟩] at hf
    · cases hf
    · rw [hloop.1 j hj (Nat.zero_le j) hname] at hf
      exact (Option.some.inj hf).symm
  · rintro ⟨i, hi, hname, rfl⟩
    exact hloop.1 i hi (Nat.zero_le i) hname

theorem Layout.find_none (h : Layout shm recs) {name : Bytes} : find_stats shm name = none ↔ name ∉ recs.map Prod.fst := by
  rw [Option.eq_none_iff_forall_ne_some]
  constructor
  · intro hno hmem
    obtain ⟨r, hr, rfl⟩ := List.mem_map.1 hmem
    obtain ⟨i, hi, rfl⟩ := List.mem_iff_getElem.1 hr
    exact hno _ (h.find.2 ⟨i, hi, rfl, rfl⟩)
  · intro hno header hf
    obtain ⟨i, hi, rfl, -⟩ := h.find.1 hf
    exact hno (List.mem_map.2 ⟨recs[i], List.getElem_mem hi, rfl⟩)

/-- The check accepts the data of the records and nothing else. -/
theorem Layout.sanity (h : Layout shm recs) (stats : Int) :
    sanity_check shm stats = .ok ↔ ∃ i < recs.length, stats = start recs i + bufferOffset := by
  unfold sanity_check
  constructor
  · intro hok
    dsimp only at hok
    split at hok
    · cases hok
    · split at hok
      · rename_i hf
        obtain ⟨i, hi, -, hstart⟩ := h.find.1 hf
        exact ⟨i, hi, by omega⟩
      · cases hok
  · rintro ⟨i, hi, rfl⟩
    have hback : start recs i + bufferOffset - bufferOffset = start recs i := by omega
    dsimp only
    rw [hback, h.name i hi]
    dsimp only
    rw [if_pos (h.find.2 ⟨i, hi, rfl, rfl⟩)]

theorem cstr_congr {a : Int} {n : Nat} (h : ∀ x, a ≤ x → x < a + n → shm' x = shm x) : cstr shm' a n = cstr shm a n := by
  rw [cstr, cstr, Mem.read_congr h]

/-- Nothing but the count and the headers matters. -/
theorem Layout.frame (h : Layout shm recs) (hcount : ∀ x : Int, 0 ≤ x → x < 4 → shm' x = shm x)
    (hhead : ∀ i < recs.length, ∀ x, start recs i ≤ x → x < start recs i + bufferOffset → shm' x = shm x) :
    Layout shm' recs := by
  refine ⟨?_, h.limit, h.small, fun i hi => ?_, fun i hi => ?_, h.distinct⟩
  · rw [nshms, Mem.read32_congr hcount]
    exact h.count
  · rw [cstr_congr fun x h₁ h₂ => hhead i hi x h₁ ?_]
    · exact h.name i hi
    · unfold NR_MAX_STATS_NAME NR_MAX_STATS_TYPE_NAME at h₂
      unfold bufferOffset
      omega
  · rw [Mem.read32_congr fun x h₁ h₂ => hhead i hi x ?_ ?_]
    · exact h.size i hi
    · unfold sizeOffset at h₁
      omega
    · unfold sizeOffset at h₂
      unfold bufferOffset
      omega

/-! ## A new record -/

/-- The memory after a record was written. -/
def writeRecord (shm : Mem) (header : Int) (name : Bytes) (libname : Option Bytes) (size : UInt32) : Mem :=
  let shm := shm.write header (strncpy name NR_MAX_STATS_NAME)
  let shm := match libname with
    | some libname => shm.write (header + libnameOffset) (strncpy libname PATH_MAX)
    | none => shm.write (header + libnameOffset) [0]
  let shm := shm.write32 (header + sizeOffset) size
  shm.write32 0 (nshms shm + 1)

theorem strncpy_length (src : Bytes) (n : Nat) : (strncpy src n).length = n := by
  rw [strncpy, List.length_append, List.length_take, List.length_replicate]
  omega

theorem store_eq_some {a : Int} {bytes : Bytes} : store shm a bytes = some shm' ↔
    Mapped a bytes.length ∧ shm' = shm.write a bytes := by
  unfold store
  split
  · rename_i hin
    simp only [Option.some.injEq, hin, true_and, eq_comm]
  · rename_i hout
    simp only [reduceCtorEq, hout, false_and]

/-- The fields that `alloc_stats` writes are in the segment. -/
def Starts (header : Int) : Prop := Mapped header (sizeOffset + 4)

/-- Every byte of the header that is written is in the segment. -/
theorem Starts.mapped {header : Int} (hs : Starts header) (off n : Nat) (hn : off + n ≤ sizeOffset + 4) :
    Mapped (header + off) n := by
  unfold Starts Mapped at hs
  unfold Mapped
  omega

theorem alloc_stats_full {name : Bytes} {libname : Option Bytes} {size : UInt32}
    (h : (nshms shm).toNat ≥ NR_MAX_STATS_SHMS ∨ find_free_wrapper shm > MAX_NR_STATS_SIZE) :
    alloc_stats shm name libname size = some (.error .R_NO_MEMORY, shm) := by
  unfold alloc_stats
  split
  · rfl
  · rename_i hroom
    exact if_pos (h.resolve_left hroom)

theorem alloc_stats_writes {name : Bytes} {libname : Option Bytes} {size : UInt32}
    (hroom : (nshms shm).toNat < NR_MAX_STATS_SHMS) (hin : find_free_wrapper shm ≤ MAX_NR_STATS_SIZE)
    (hs : Starts (find_free_wrapper shm)) : alloc_stats shm name libname size =
      some (.ok (find_free_wrapper shm), writeRecord shm (find_free_wrapper shm) name libname size) := by
  unfold alloc_stats
  rw [if_neg (Nat.not_le.2 hroom)]
  dsimp only
  rw [if_neg (Int.not_lt.2 hin)]
  generalize find_free_wrapper shm = header at hs
  have hname : Mapped header (strncpy name NR_MAX_STATS_NAME).length := by
    have h := hs.mapped 0 NR_MAX_STATS_NAME (by decide)
    rwa [Int.natCast_zero, Int.add_zero, ← strncpy_length name NR_MAX_STATS_NAME] at h
  have hsize : Mapped (header + sizeOffset) (le32 size).length := hs.mapped _ _ (Nat.le_refl _)
  have hcount : ∀ v, Mapped 0 (le32 v).length := fun v => by
    show Mapped 0 4
    decide
  cases libname with
  | none =>
    have hlib : Mapped (header + libnameOffset) 1 := hs.mapped _ _ (by decide)
    simp only [store, hname, hlib, hsize, hcount, if_true, List.length_singleton, Option.bind_eq_bind, Option.bind_some]
    rfl
  | some libname =>
    have hlib : Mapped (header + libnameOffset) (strncpy libname PATH_MAX).length := by
      rw [strncpy_length]
      exact hs.mapped _ _ (by decide)
    simp only [store, hname, hlib, hsize, hcount, if_true, Option.bind_eq_bind, Option.bind_some]
    rfl

/-- The first write and the one of the size are at the ends of what is written. -/
theorem alloc_stats_faults {name : Bytes} {libname : Option Bytes} {size : UInt32}
    (hroom : (nshms shm).toNat < NR_MAX_STATS_SHMS) (hin : find_free_wrapper shm ≤ MAX_NR_STATS_SIZE)
    (hs : ¬ Starts (find_free_wrapper shm)) : alloc_stats shm name libname size = none := by
  unfold alloc_stats
  rw [if_neg (Nat.not_le.2 hroom)]
  dsimp only
  rw [if_neg (Int.not_lt.2 hin), Option.eq_none_iff_forall_ne_some]
  intro x hx
  apply hs
  obtain ⟨m₁, h₁, hx⟩ := Option.bind_eq_some_iff.1 hx
  obtain ⟨m₂, -, hx⟩ := Option.bind_eq_some_iff.1 hx
  obtain ⟨m₃, h₃, -⟩ := Option.bind_eq_some_iff.1 hx
  obtain ⟨⟨hge, -⟩, -⟩ := store_eq_some.1 h₁
  obtain ⟨⟨-, hle⟩, -⟩ := store_eq_some.1 h₃
  rw [show (le32 size).length = 4 from rfl] at hle
  exact ⟨hge, by omega⟩

/-- `alloc_stats` fails and changes nothing, faults at a header that is not in
the segment, or writes a record. -/
theorem alloc_stats_cases (shm : Mem) (name : Bytes) (libname : Option Bytes) (size : UInt32) :
    (alloc_stats shm name libname size = some (.error .R_NO_MEMORY, shm) ∧
      ((nshms shm).toNat ≥ NR_MAX_STATS_SHMS ∨ find_free_wrapper shm > MAX_NR_STATS_SIZE)) ∨
    ((nshms shm).toNat < NR_MAX_STATS_SHMS ∧ find_free_wrapper shm ≤ MAX_NR_STATS_SIZE ∧
      ((¬ Starts (find_free_wrapper shm) ∧ alloc_stats shm name libname size = none) ∨
        (Starts (find_free_wrapper shm) ∧ alloc_stats shm name libname size =
          some (.ok (find_free_wrapper shm), writeRecord shm (find_free_wrapper shm) name libname size)))) := by
  by_cases hfull : (nshms shm).toNat ≥ NR_MAX_STATS_SHMS ∨ find_free_wrapper shm > MAX_NR_STATS_SIZE
  · exact .inl ⟨alloc_stats_full hfull, hfull⟩
  · obtain ⟨hroom, hin⟩ := not_or.1 hfull
    have hroom := Nat.lt_of_not_le hroom
    have hin := Int.not_lt.1 hin
    by_cases hs : Starts (find_free_wrapper shm)
    · exact .inr ⟨hroom, hin, .inr ⟨hs, alloc_stats_writes hroom hin hs⟩⟩
    · exact .inr ⟨hroom, hin, .inl ⟨hs, alloc_stats_faults hroom hin hs⟩⟩

section
variable {header : Int} {name : Bytes} {libname : Option Bytes} {size : UInt32}

/-- The library name is written between the name and the size. -/
theorem libname_write {m : Mem} {x : Int} (h : x < header + libnameOffset ∨ header + sizeOffset ≤ x) :
    (match libname with
      | some libname => m.write (header + libnameOffset) (strncpy libname PATH_MAX)
      | none => m.write (header + libnameOffset) [0]) x = m x := by
  unfold libnameOffset sizeOffset NR_MAX_STATS_NAME NR_MAX_STATS_TYPE_NAME at h
  cases libname with
  | none =>
    apply Mem.write_outside
    unfold libnameOffset NR_MAX_STATS_NAME NR_MAX_STATS_TYPE_NAME
    rw [List.length_singleton]
    omega
  | some libname =>
    apply Mem.write_outside
    rw [strncpy_length]
    unfold libnameOffset NR_MAX_STATS_NAME NR_MAX_STATS_TYPE_NAME PATH_MAX
    omega

theorem writeRecord_outside {x : Int} (hx : x < header ∨ header + bufferOffset ≤ x) (h0 : x < 0 ∨ 4 ≤ x) :
    writeRecord shm header name libname size x = shm x := by
  unfold bufferOffset at hx
  unfold writeRecord
  rw [Mem.write32_outside (by omega), Mem.write32_outside (by unfold sizeOffset; omega), libname_write,
    Mem.write_outside]
  · rw [strncpy_length]
    unfold NR_MAX_STATS_NAME NR_MAX_STATS_TYPE_NAME
    omega
  · unfold libnameOffset sizeOffset NR_MAX_STATS_NAME NR_MAX_STATS_TYPE_NAME
    omega

theorem writeRecord_count (hh : FIRSTWRAPPER ≤ header) :
    nshms (writeRecord shm header name libname size) = nshms shm + 1 := by
  unfold FIRSTWRAPPER at hh
  unfold writeRecord
  dsimp only
  rw [nshms, Mem.read32_write32]
  congr 1
  refine Mem.read32_congr fun x h₁ h₂ => ?_
  rw [Mem.write32_outside (by unfold sizeOffset; omega), libname_write (.inl (by omega)), Mem.write_outside (by omega)]

theorem writeRecord_size (hh : FIRSTWRAPPER ≤ header) :
    (writeRecord shm header name libname size).read32 (header + sizeOffset) = size := by
  unfold FIRSTWRAPPER at hh
  unfold writeRecord
  dsimp only
  rw [Mem.read32_congr fun x h₁ h₂ => Mem.write32_outside (by omega), Mem.read32_write32]

theorem writeRecord_name (hh : FIRSTWRAPPER ≤ header) (hlen : name.length < NR_MAX_STATS_NAME) (h0 : 0 ∉ name) :
    cstr (writeRecord shm header name libname size) header NR_MAX_STATS_NAME = some name := by
  have hread : (writeRecord shm header name libname size).read header NR_MAX_STATS_NAME =
      name ++ List.replicate (NR_MAX_STATS_NAME - name.length) 0 := by
    have hcopy : strncpy name NR_MAX_STATS_NAME = name ++ List.replicate (NR_MAX_STATS_NAME - name.length) 0 := by
      rw [strncpy, List.take_of_length_le (Nat.le_of_lt hlen)]
    have hsame : (shm.write header (strncpy name NR_MAX_STATS_NAME)).read header (strncpy name NR_MAX_STATS_NAME).length =
        strncpy name NR_MAX_STATS_NAME := Mem.read_write_same
    rw [strncpy_length] at hsame
    rw [← hcopy, ← hsame]
    refine Mem.read_congr fun x h₁ h₂ => ?_
    unfold FIRSTWRAPPER at hh
    unfold NR_MAX_STATS_NAME NR_MAX_STATS_TYPE_NAME at h₂
    unfold writeRecord
    rw [Mem.write32_outside (by omega), Mem.write32_outside (by unfold sizeOffset; omega), libname_write]
    unfold libnameOffset NR_MAX_STATS_NAME NR_MAX_STATS_TYPE_NAME
    omega
  obtain ⟨k, hk⟩ : ∃ k, NR_MAX_STATS_NAME - name.length = k + 1 := ⟨NR_MAX_STATS_NAME - name.length - 1, by omega⟩
  rw [cstr, hread, hk, List.replicate_succ, if_pos (by simp)]
  congr 1
  rw [List.takeWhile_append_of_pos fun c hc => ?_]
  · simp
  · simpa using fun hc0 : c = 0 => h0 (hc0 ▸ hc)

end

/-- Writing behind the last record adds one. -/
theorem Layout.record (h : Layout shm recs) {name : Bytes} {libname : Option Bytes} {size : UInt32}
    (hlen : name.length < NR_MAX_STATS_NAME) (h0 : 0 ∉ name) (hnew : name ∉ recs.map Prod.fst)
    (hsize : size.toNat < 2 ^ 31) (hroom : recs.length < NR_MAX_STATS_SHMS) :
    Layout (writeRecord shm (start recs recs.length) name libname size) (recs ++ [(name, size)]) := by
  have hfirst := first_le_start recs recs.length
  have hstart : ∀ {i}, i ≤ recs.length → start (recs ++ [(name, size)]) i = start recs i :=
    fun hi => start_append recs _ hi
  -- the earlier headers are below
  have hbelow : ∀ i (hi : i < recs.length) x, x < start recs i + bufferOffset →
      x < start recs recs.length := by
    intro i hi x hx
    have hap := start_apart hi hi
    have hspan := buffer_le_span recs[i]
    omega
  have hkeep : ∀ i (hi : i < recs.length) x, start recs i ≤ x → x < start recs i + bufferOffset →
      writeRecord shm (start recs recs.length) name libname size x = shm x := by
    intro i hi x h₁ h₂
    have hge := first_le_start recs i
    unfold FIRSTWRAPPER at hge
    exact writeRecord_outside (.inl (hbelow i hi x h₂)) (.inr (by omega))
  have hlast : ∀ i, i < (recs ++ [(name, size)]).length → i < recs.length ∨ i = recs.length := by
    intro i hi
    rw [List.length_append, List.length_singleton] at hi
    omega
  refine ⟨?_, ?_, ?_, fun i hi => ?_, fun i hi => ?_, ?_⟩
  · have hc := h.count
    rw [writeRecord_count hfirst, List.length_append, List.length_singleton, ← hc, UInt32.toNat_add]
    unfold NR_MAX_STATS_SHMS at hroom
    have hone : (1 : UInt32).toNat = 1 := rfl
    rw [hone]
    omega
  · rw [List.length_append, List.length_singleton]
    exact hroom
  · intro r hr
    rcases List.mem_append.1 hr with hr | hr
    · exact h.small r hr
    · rw [List.mem_singleton.1 hr]
      exact hsize
  · rcases hlast i hi with hlt | rfl
    · rw [hstart (Nat.le_of_lt hlt), cstr_congr fun x h₁ h₂ => hkeep i hlt x h₁ ?_, List.getElem_append_left hlt]
      · exact h.name i hlt
      · unfold NR_MAX_STATS_NAME NR_MAX_STATS_TYPE_NAME at h₂
        unfold bufferOffset
        omega
    · rw [hstart (Nat.le_refl _), writeRecord_name hfirst hlen h0]
      simp
  · rcases hlast i hi with hlt | rfl
    · rw [hstart (Nat.le_of_lt hlt), Mem.read32_congr fun x h₁ h₂ => hkeep i hlt x ?_ ?_, List.getElem_append_left hlt]
      · exact h.size i hlt
      · unfold sizeOffset at h₁
        omega
      · unfold sizeOffset at h₂
        unfold bufferOffset
        omega
    · rw [hstart (Nat.le_refl _), writeRecord_size hfirst]
      simp
  · rw [List.map_append, List.nodup_append]
    refine ⟨h.distinct, by simp, fun a ha b hb => ?_⟩
    rintro rfl
    rw [List.map_singleton, List.mem_singleton] at hb
    subst hb
    exact hnew ha

end

end Nrappkit.Stats
