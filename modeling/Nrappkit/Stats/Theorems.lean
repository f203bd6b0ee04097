import Nrappkit.Stats.Layout
import Nrappkit.Lib.Runs
/-!
# What the statistics segment guarantees

Calls of `NR_stats_get` that create what they do not find, and clients that
write to the blocks they were handed, on a segment that was just created.
-/
open Lib

namespace Nrappkit.Stats

inductive Op where
  | get (module_name : Option Bytes) (type : NR_stats_type)
  /-- A client writes to the block at an address it was handed. -/
  | fill (stats : Int) (data : Bytes)

def step (s : Process) : Op → Option (Except Status Int × Process)
  | .get module_name type => NR_stats_get s module_name type true
  | .fill stats data => (store s.shm stats data).map fun shm => (.ok stats, { s with shm })

/-- The name a call looks for. -/
def storedName (app module_name : Option Bytes) (type : NR_stats_type) : Option Bytes :=
  app.bind fun app => (compute_name app module_name type.name).toOption

/-- A call comes to make a record with the name: it is new, and nothing fails
before. -/
structure Makes (s : Process) (module_name : Option Bytes) (type : NR_stats_type) (n : Bytes) : Prop where
  stored : storedName s.app module_name type = some n
  new : n ∉ s.recs.map Prod.fst
  registers : ∃ types, register_type s.types type = .ok types
  library : ∃ libname, type.get_lib_name.getD (.ok (some [])) = .ok libname

/-- The data fits into the block at the address. -/
def Owns (recs : List (Bytes × UInt32)) (stats : Int) (data : Bytes) : Prop :=
  ∃ i, ∃ hi : i < recs.length, stats = start recs i + bufferOffset ∧ data.length ≤ recs[i].2.toNat

section
variable {s s' : Process} {module_name : Option Bytes} {type : NR_stats_type} {r : Except Status Int}

theorem truncated_length {text n : Bytes}
    (h : (if text.length ≥ NR_MAX_STATS_NAME then .error .R_BAD_ARGS else .ok (text.take (NR_MAX_STATS_NAME - 2)) :
      Except Status Bytes) = .ok n) : n.length < NR_MAX_STATS_NAME := by
  split at h
  · cases h
  · cases h
    rw [List.length_take]
    unfold NR_MAX_STATS_NAME NR_MAX_STATS_TYPE_NAME
    omega

theorem compute_name_length {app type_name n : Bytes} (h : compute_name app module_name type_name = .ok n) :
    n.length < NR_MAX_STATS_NAME := by
  cases module_name with
  | none => exact truncated_length h
  | some module_name => exact truncated_length h

theorem storedName_length {app : Option Bytes} {n : Bytes} (h : storedName app module_name type = some n) :
    n.length < NR_MAX_STATS_NAME := by
  obtain ⟨app, -, hn⟩ := Option.bind_eq_some_iff.1 h
  cases hc : compute_name app module_name type.name with
  | error r =>
    rw [hc] at hn
    cases hn
  | ok n' =>
    rw [hc] at hn
    cases hn
    exact compute_name_length hc

/-- What is handed out for a record. -/
theorem Layout.handOut (h : Layout s.shm s.recs) {i : Nat} (hi : i < s.recs.length) :
    handOut s (start s.recs i) = some (.ok (start s.recs i + bufferOffset), s) := by
  rw [Stats.handOut, if_pos ((h.sanity _).2 ⟨i, hi, rfl⟩)]

/-- What a call does: it faults at a record that starts in the segment and does
not fit, fails and leaves the segment as it is, hands out a record that is there,
or writes a new one. -/
theorem get_cases (h : Layout s.shm s.recs) (h0 : ∀ n, storedName s.app module_name type = some n → 0 ∉ n)
    (hsmall : ∀ n, Makes s module_name type n → s.recs.length < NR_MAX_STATS_SHMS →
      start s.recs s.recs.length ≤ MAX_NR_STATS_SIZE → type.size.toNat < 2 ^ 31) :
    (∃ n, Makes s module_name type n ∧ s.recs.length < NR_MAX_STATS_SHMS ∧
      start s.recs s.recs.length ≤ MAX_NR_STATS_SIZE ∧ ¬ Starts (start s.recs s.recs.length) ∧
      NR_stats_get s module_name type true = none) ∨
    ∃ r types s', NR_stats_get s module_name type true = some (r, s') ∧
      ((∃ e, r = .error e ∧ s' = { s with types } ∧ ∀ n, Makes s module_name type n →
          s.recs.length ≥ NR_MAX_STATS_SHMS ∨ start s.recs s.recs.length > MAX_NR_STATS_SIZE) ∨
        (∃ i, ∃ hi : i < s.recs.length, storedName s.app module_name type = some s.recs[i].1 ∧
          r = .ok (start s.recs i + bufferOffset) ∧ s' = { s with types }) ∨
        (∃ n libname, Makes s module_name type n ∧ s.recs.length < NR_MAX_STATS_SHMS ∧
          start s.recs s.recs.length ≤ MAX_NR_STATS_SIZE ∧ r = .ok (start s.recs s.recs.length + bufferOffset) ∧
          Layout s'.shm s'.recs ∧ s' = { s with
            types
            shm := writeRecord s.shm (start s.recs s.recs.length) n libname type.size
            recs := s.recs ++ [(n, type.size)] })) := by
  unfold NR_stats_get
  split
  · rename_i happ
    exact .inr ⟨_, s.types, _, rfl, .inl ⟨_, rfl, rfl, fun n hm => absurd hm.stored (by simp [storedName, happ])⟩⟩
  rename_i app happ
  split
  · rename_i e hno
    refine .inr ⟨_, s.types, _, rfl, .inl ⟨e, rfl, rfl, fun n hm => ?_⟩⟩
    obtain ⟨types, htypes⟩ := hm.registers
    rw [hno] at htypes
    cases htypes
  rename_i types htypes
  have hlayout : Layout ({ s with types } : Process).shm ({ s with types } : Process).recs := h
  dsimp only
  split
  · rename_i hname
    refine .inr ⟨_, types, _, rfl, .inl ⟨_, rfl, rfl, fun n hm => ?_⟩⟩
    exact absurd hm.stored (by simp [storedName, happ, hname, Except.toOption])
  rename_i name hname
  have hstored : storedName s.app module_name type = some name := by simp [storedName, happ, hname, Except.toOption]
  split
  · rename_i header hfound
    obtain ⟨i, hi, rfl, rfl⟩ := h.find.1 hfound
    exact .inr ⟨_, types, _, hlayout.handOut hi, .inr (.inl ⟨i, hi, hstored, rfl, rfl⟩)⟩
  rename_i hnone
  have hnew := h.find_none.1 hnone
  rw [if_pos rfl]
  split
  · rename_i hlib
    refine .inr ⟨_, types, _, rfl, .inl ⟨_, rfl, rfl, fun n hm => ?_⟩⟩
    obtain ⟨libname, hlib'⟩ := hm.library
    rw [hlib] at hlib'
    cases hlib'
  rename_i libname hlib
  have hm : Makes s module_name type name := ⟨hstored, hnew, ⟨types, htypes⟩, ⟨libname, hlib⟩⟩
  have hcases := alloc_stats_cases s.shm name libname type.size
  rw [h.free, h.count] at hcases
  rcases hcases with ⟨halloc, hfull⟩ | ⟨hroom, hin, ⟨hout, halloc⟩ | ⟨-, halloc⟩⟩
  · rw [halloc]
    exact .inr ⟨_, types, _, rfl, .inl ⟨_, rfl, rfl, fun _ _ => hfull⟩⟩
  · rw [halloc]
    exact .inl ⟨name, hm, hroom, hin, hout, rfl⟩
  · rw [halloc]
    have hrec : Layout (writeRecord s.shm (start s.recs s.recs.length) name libname type.size)
        (s.recs ++ [(name, type.size)]) :=
      h.record (storedName_length hstored) (h0 name hstored) hnew (hsmall name hm hroom hin) hroom
    have hout := Layout.handOut (s := { s with
      types
      shm := writeRecord s.shm (start s.recs s.recs.length) name libname type.size
      recs := s.recs ++ [(name, type.size)] }) hrec (i := s.recs.length) (by simp)
    rw [start_append s.recs _ (Nat.le_refl _)] at hout
    exact .inr ⟨_, types, _, hout, .inr (.inr ⟨name, libname, hm, hroom, hin, rfl, hrec, rfl⟩)⟩

/-- A client that writes to its block changes no header. -/
theorem Layout.fill {shm : Mem} {recs : List (Bytes × UInt32)} (h : Layout shm recs) {stats : Int} {data : Bytes}
    (ho : Owns recs stats data) : Layout (shm.write stats data) recs := by
  obtain ⟨i, hi, rfl, hlen⟩ := ho
  have hfirst := first_le_start recs i
  have hspan := buffer_le_span recs[i]
  unfold FIRSTWRAPPER at hfirst
  refine h.frame (fun x h₁ h₂ => Mem.write_outside (.inl (by omega))) fun j hj x h₁ h₂ => Mem.write_outside ?_
  rcases Nat.lt_trichotomy i j with hij | rfl | hij
  · have hap := start_apart hi hij
    omega
  · omega
  · have hap := start_apart hj hij
    have hspan' := buffer_le_span recs[j]
    omega

/-- Two records have no byte in common. -/
theorem blocks_apart {recs : List (Bytes × UInt32)} {i j : Nat} (hi : i < recs.length) (hj : j < recs.length)
    (hne : i ≠ j) {x : Int} (h₁ : start recs i ≤ x) (h₂ : x < start recs i + bufferOffset + recs[i].2.toNat) :
    x < start recs j ∨ start recs j + bufferOffset + recs[j].2.toNat ≤ x := by
  have hspan := buffer_le_span recs[i]
  have hspan' := buffer_le_span recs[j]
  rcases Nat.lt_or_gt_of_ne hne with hij | hij
  · have hap := start_apart hi hij
    omega
  · have hap := start_apart hj hij
    omega

end

/-- A segment that was just created. -/
structure Fresh (s : Process) : Prop where
  count : nshms s.shm = 0
  recs : s.recs = []

theorem Fresh.layout {s : Process} (h : Fresh s) : Layout s.shm s.recs := by
  rw [h.recs]
  refine ⟨?_, by decide, by simp, fun i hi => absurd hi (Nat.not_lt_zero i), fun i hi => absurd hi (Nat.not_lt_zero i),
    List.nodup_nil⟩
  rw [h.count]
  rfl

/-- A process that has just created the segment. -/
def started : Process := { app := some (str "app"), shm := fun _ => 0, types := [], recs := [] }

theorem started_fresh : Fresh started := ⟨by decide +kernel, rfl⟩

def small : NR_stats_type := { name := str "small", get_lib_name := none, size := 8 }

/-- The first record of a segment. -/
theorem first_get : storedName started.app none small = some (str "app.small") ∧
    ∃ s, step started (.get none small) = some (.ok 4188, s) := by
  have hst : (step started (.get none small)).map Prod.fst = some (.ok 4188) := by decide +kernel
  obtain ⟨⟨r, s⟩, hst, rfl⟩ := Option.map_eq_some_iff.1 hst
  exact ⟨by decide +kernel, s, hst⟩

theorem first_recs {s : Process} (h : step started (.get none small) = some (.ok 4188, s)) :
    s.recs = [(str "app.small", 8)] := by
  have hget : ((step started (.get none small)).map fun p => p.2.recs) = some [(str "app.small", 8)] := by
    decide +kernel
  rw [h] at hget
  exact Option.some.inj hget

/-- The address was handed out for the name. -/
def Handed (app : Option Bytes) (evs : List (Op × Except Status Int)) (n : Bytes) (a : Int) : Prop :=
  ∃ module_name type, (Op.get module_name type, .ok a) ∈ evs ∧ storedName app module_name type = some n

theorem handed_snoc {app : Option Bytes} {evs : List (Op × Except Status Int)} {op : Op} {r : Except Status Int}
    {n : Bytes} {a : Int} : Handed app (evs ++ [(op, r)]) n a ↔ Handed app evs n a ∨
      ∃ module_name type, op = .get module_name type ∧ r = .ok a ∧ storedName app module_name type = some n := by
  unfold Handed
  simp only [List.mem_append, List.mem_singleton, Prod.mk.injEq]
  constructor
  · rintro ⟨m, t, hmem | ⟨rfl, rfl⟩, hn⟩
    · exact .inl ⟨m, t, hmem, hn⟩
    · exact .inr ⟨m, t, rfl, rfl, hn⟩
  · rintro (⟨m, t, hmem, hn⟩ | ⟨m, t, rfl, rfl, hn⟩)
    · exact ⟨m, t, .inl hmem, hn⟩
    · exact ⟨m, t, .inr ⟨rfl, rfl⟩, hn⟩

/-- The addresses handed out are those of the records. -/
def HandedRecs (app : Option Bytes) (evs : List (Op × Except Status Int)) (recs : List (Bytes × UInt32)) : Prop :=
  ∀ n a, Handed app evs n a ↔ ∃ i, ∃ hi : i < recs.length, recs[i].1 = n ∧ a = start recs i + bufferOffset

section
variable {s₀ s s' : Process} {evs : List (Op × Except Status Int)}

theorem HandedRecs.found {app : Option Bytes} {recs : List (Bytes × UInt32)} (h : HandedRecs app evs recs)
    {module_name : Option Bytes} {type : NR_stats_type} {i : Nat} (hi : i < recs.length)
    (hs : storedName app module_name type = some recs[i].1) :
    HandedRecs app (evs ++ [(.get module_name type, .ok (start recs i + bufferOffset))]) recs := by
  intro n a
  rw [handed_snoc, h n a]
  constructor
  · rintro (hex | ⟨m, t, hget, ha, hn⟩)
    · exact hex
    · cases hget
      rw [hs] at hn
      exact ⟨i, hi, Option.some.inj hn, (Except.ok.inj ha).symm⟩
  · exact .inl

theorem HandedRecs.failed {app : Option Bytes} {recs : List (Bytes × UInt32)} (h : HandedRecs app evs recs)
    {op : Op} {r : Except Status Int} (hop : ∀ m t a, op = .get m t → r ≠ .ok a) :
    HandedRecs app (evs ++ [(op, r)]) recs := by
  intro n a
  rw [handed_snoc, h n a]
  constructor
  · rintro (hex | ⟨m, t, hget, ha, -⟩)
    · exact hex
    · exact absurd ha (hop m t a hget)
  · exact .inl

theorem HandedRecs.created {app : Option Bytes} {recs : List (Bytes × UInt32)} (h : HandedRecs app evs recs)
    {module_name : Option Bytes} {type : NR_stats_type} {n : Bytes} {size : UInt32}
    (hs : storedName app module_name type = some n) :
    HandedRecs app (evs ++ [(.get module_name type, .ok (start recs recs.length + bufferOffset))])
      (recs ++ [(n, size)]) := by
  have hstart : ∀ {i}, i ≤ recs.length → start (recs ++ [(n, size)]) i = start recs i :=
    fun hi => start_append recs _ hi
  intro n' a
  rw [handed_snoc, h n' a]
  constructor
  · rintro (⟨i, hi, hn, ha⟩ | ⟨m, t, hget, ha, hn⟩)
    · refine ⟨i, by rw [List.length_append]; omega, ?_, ?_⟩
      · rw [List.getElem_append_left hi]
        exact hn
      · rw [hstart (Nat.le_of_lt hi)]
        exact ha
    · cases hget
      rw [hs] at hn
      refine ⟨recs.length, by simp, ?_, ?_⟩
      · rw [List.getElem_concat_length rfl]
        exact Option.some.inj hn
      · rw [hstart (Nat.le_refl _)]
        exact (Except.ok.inj ha).symm
  · rintro ⟨i, hi, hn, ha⟩
    rw [List.length_append, List.length_singleton] at hi
    rcases Nat.lt_succ_iff_lt_or_eq.1 hi with hlt | rfl
    · refine .inl ⟨i, hlt, ?_, ?_⟩
      · rw [List.getElem_append_left hlt] at hn
        exact hn
      · rw [hstart (Nat.le_of_lt hlt)] at ha
        exact ha
    · refine .inr ⟨module_name, type, rfl, ?_, ?_⟩
      · rw [hstart (Nat.le_refl _)] at ha
        rw [ha]
      · rw [List.getElem_concat_length rfl] at hn
        rw [hs]
        exact congrArg some hn

/-! ## What is known of the records -/

/-- What holds of every state that is reached. -/
structure Known (app : Option Bytes) (evs : List (Op × Except Status Int)) (s : Process) : Prop where
  layout : Layout s.shm s.recs
  same : s.app = app
  handed : HandedRecs app evs s.recs

theorem Fresh.known (h₀ : Fresh s₀) : Known s₀.app [] s₀ :=
  ⟨h₀.layout, rfl, fun n a => by simp [Handed, h₀.recs]⟩

/-- A call that returns keeps the records or adds one. -/
theorem Known.get {app : Option Bytes} (h : Known app evs s) {module_name : Option Bytes} {type : NR_stats_type}
    (hn : ∀ n, storedName s.app module_name type = some n → 0 ∉ n ∧ type.size.toNat < 2 ^ 31) {r : Except Status Int}
    (hst : step s (.get module_name type) = some (r, s')) : Known app (evs ++ [(.get module_name type, r)]) s' ∧
      (s'.recs = s.recs ∨ ∃ n, Makes s module_name type n ∧ s'.recs = s.recs ++ [(n, type.size)]) := by
  have hcases := get_cases h.layout (fun n hstored => (hn n hstored).1) fun n hm _ _ => (hn n hm.stored).2
  rw [step] at hst
  rcases hcases with ⟨-, -, -, -, -, hnone⟩ | ⟨r', types, s₁, hst', hcases⟩
  · rw [hst] at hnone
    cases hnone
  rw [hst] at hst'
  cases hst'
  rcases hcases with ⟨e, rfl, rfl, -⟩ | ⟨i, hi, hstored, rfl, rfl⟩ | ⟨n, libname, hm, -, -, rfl, hlayout, rfl⟩
  · exact ⟨⟨h.layout, h.same, h.handed.failed (by simp)⟩, .inl rfl⟩
  · rw [h.same] at hstored
    exact ⟨⟨h.layout, h.same, h.handed.found hi hstored⟩, .inl rfl⟩
  · refine ⟨⟨hlayout, h.same, ?_⟩, .inr ⟨n, hm, rfl⟩⟩
    have hstored := hm.stored
    rw [h.same] at hstored
    exact h.handed.created hstored

theorem step_fill {stats : Int} {data : Bytes} {r : Except Status Int} (hst : step s (.fill stats data) = some (r, s')) :
    r = .ok stats ∧ s' = { s with shm := s.shm.write stats data } := by
  obtain ⟨shm, hstore, heq⟩ := Option.map_eq_some_iff.1 hst
  obtain ⟨-, rfl⟩ := store_eq_some.1 hstore
  cases heq
  exact ⟨rfl, rfl⟩

theorem Known.fill {app : Option Bytes} (h : Known app evs s) {stats : Int} {data : Bytes} (ho : Owns s.recs stats data)
    {r : Except Status Int} (hst : step s (.fill stats data) = some (r, s')) :
    Known app (evs ++ [(.fill stats data, r)]) s' := by
  obtain ⟨rfl, rfl⟩ := step_fill hst
  refine ⟨h.layout.fill ho, h.same, h.handed.failed fun m t a hop => ?_⟩
  cases hop

/-! ## Blocks and the end of the segment -/

/-- The header and `size` bytes of data are in the segment. -/
def Inside (header : Int) (size : UInt32) : Prop :=
  0 ≤ header ∧ header + bufferOffset + size.toNat ≤ MAX_NR_STATS_SIZE

/-- With what is there, a record of the size ends in the segment, or no record
can start: the table is full, or the place for the next one is behind the end. -/
def Room (recs : List (Bytes × UInt32)) (size : UInt32) : Prop :=
  recs.length ≥ NR_MAX_STATS_SHMS ∨ start recs recs.length > MAX_NR_STATS_SIZE ∨
    start recs recs.length + bufferOffset + size.toNat ≤ MAX_NR_STATS_SIZE

def Fits (s : Process) : Op → Prop
  | .get module_name type => ∀ n, storedName s.app module_name type = some n → 0 ∉ n ∧
    (n ∉ s.recs.map Prod.fst → Room s.recs type.size)
  | .fill stats data => Owns s.recs stats data

theorem Room.inside {recs : List (Bytes × UInt32)} {size : UInt32} (h : Room recs size)
    (hroom : recs.length < NR_MAX_STATS_SHMS) (hin : start recs recs.length ≤ MAX_NR_STATS_SIZE) :
    Inside (start recs recs.length) size := by
  have hfirst := first_le_start recs recs.length
  unfold FIRSTWRAPPER at hfirst
  unfold Inside
  rcases h with h | h | h
  · omega
  · omega
  · omega

theorem Inside.starts {header : Int} {size : UInt32} (h : Inside header size) : Starts header := by
  obtain ⟨hge, hle⟩ := h
  refine ⟨hge, ?_⟩
  unfold bufferOffset at hle
  unfold sizeOffset
  omega

theorem Inside.small {header : Int} {size : UInt32} (h : Inside header size) : size.toNat < 2 ^ 31 := by
  obtain ⟨hge, hle⟩ := h
  unfold MAX_NR_STATS_SIZE at hle
  omega

/-- A record that has room joins records that have. -/
theorem inside_snoc {recs : List (Bytes × UInt32)} {n : Bytes} {size : UInt32}
    (h : ∀ i (hi : i < recs.length), Inside (start recs i) recs[i].2) (hin : Inside (start recs recs.length) size) (i : Nat)
    (hi : i < (recs ++ [(n, size)]).length) : Inside (start (recs ++ [(n, size)]) i) (recs ++ [(n, size)])[i].2 := by
  have hi' : i < recs.length + 1 := by simpa using hi
  rcases Nat.lt_succ_iff_lt_or_eq.1 hi' with hlt | rfl
  · rw [start_append recs _ (Nat.le_of_lt hlt), List.getElem_append_left hlt]
    exact h i hlt
  · rw [start_append recs _ (Nat.le_refl _), List.getElem_concat_length rfl]
    exact hin

/-- Every record is in the segment. -/
structure AllInside (s : Process) : Prop where
  layout : Layout s.shm s.recs
  inside : ∀ i (hi : i < s.recs.length), Inside (start s.recs i) s.recs[i].2

theorem Fresh.allInside (h : Fresh s₀) : AllInside s₀ := ⟨h.layout, fun i hi => absurd hi (by simp [h.recs])⟩

/-- A call returns where the record that it comes to make has room, and the
records stay in the segment. -/
theorem AllInside.get (h : AllInside s) {module_name : Option Bytes} {type : NR_stats_type}
    (h0 : ∀ n, storedName s.app module_name type = some n → 0 ∉ n)
    (hroom : ∀ n, Makes s module_name type n → Room s.recs type.size) :
    ∃ r s', step s (.get module_name type) = some (r, s') ∧ AllInside s' := by
  have hsmall : ∀ n, Makes s module_name type n → s.recs.length < NR_MAX_STATS_SHMS →
      start s.recs s.recs.length ≤ MAX_NR_STATS_SIZE → type.size.toNat < 2 ^ 31 :=
    fun n hm hcount hin => ((hroom n hm).inside hcount hin).small
  rcases get_cases h.layout h0 hsmall with ⟨n, hm, hcount, hin, hout, -⟩ | ⟨r, types, s', hst, hcases⟩
  · exact absurd ((hroom n hm).inside hcount hin).starts hout
  refine ⟨r, s', hst, ?_⟩
  rcases hcases with ⟨e, rfl, rfl, -⟩ | ⟨i, hi, hstored, rfl, rfl⟩ | ⟨n, libname, hm, hcount, hin, rfl, hlayout, rfl⟩
  · exact ⟨h.layout, h.inside⟩
  · exact ⟨h.layout, h.inside⟩
  · exact ⟨hlayout, inside_snoc h.inside ((hroom n hm).inside hcount hin)⟩

/-- So does a client. -/
theorem AllInside.fill (h : AllInside s) {stats : Int} {data : Bytes} (ho : Owns s.recs stats data) :
    step s (.fill stats data) = some (.ok stats, { s with shm := s.shm.write stats data }) ∧
      AllInside { s with shm := s.shm.write stats data } := by
  refine ⟨?_, h.layout.fill ho, h.inside⟩
  obtain ⟨i, hi, rfl, hlen⟩ := ho
  obtain ⟨hge, hle⟩ := h.inside i hi
  have hin : Mapped (start s.recs i + bufferOffset) data.length := ⟨by omega, by omega⟩
  rw [step, store, if_pos hin]
  rfl

theorem AllInside.step (h : AllInside s) {op : Op} {r : Except Status Int} (hf : Fits s op)
    (hst : Stats.step s op = some (r, s')) : AllInside s' := by
  cases op with
  | get module_name type =>
    obtain ⟨r', s₁, hst', h'⟩ := h.get (fun n hn => (hf n hn).1) fun n hm => (hf n hm.stored).2 hm.new
    rw [hst] at hst'
    cases hst'
    exact h'
  | fill stats data =>
    obtain ⟨hst', h'⟩ := h.fill hf
    rw [hst] at hst'
    cases hst'
    exact h'

/-- In every run in which each new record finds room, every record is in the
segment; and the next call returns a record that ends in it, or refuses it with
the count unchanged, if and only if there is room for it. -/
theorem block_inside_iff (h₀ : Fresh s₀) (hrun : Run step Fits s₀ evs s) (name : Bytes) (libname : Option Bytes)
    (size : UInt32) :
    (∀ i (hi : i < s.recs.length), Inside (start s.recs i) s.recs[i].2) ∧
      ((∃ r shm', alloc_stats s.shm name libname size = some (r, shm') ∧ (∀ header, r = .ok header → Inside header size) ∧
        ∀ e, r = .error e → e = .R_NO_MEMORY ∧ nshms shm' = nshms s.shm) ↔ Room s.recs size) := by
  have h : AllInside s := hrun.inv AllInside h₀.allInside fun _ _ _ _ hs hf hst => hs.step hf hst
  refine ⟨h.inside, ?_⟩
  have hcases := alloc_stats_cases s.shm name libname size
  rw [h.layout.count, h.layout.free] at hcases
  rcases hcases with ⟨halloc, hfull⟩ | ⟨hcount, hin, ⟨hout, halloc⟩ | ⟨-, halloc⟩⟩
  · refine iff_of_true ⟨_, _, halloc, by simp, fun e he => ⟨(Except.error.inj he).symm, rfl⟩⟩ ?_
    rcases hfull with hfull | hfull
    · exact .inl hfull
    · exact .inr (.inl hfull)
  · refine iff_of_false (fun ⟨r, shm', hret, _⟩ => ?_) fun hroom => hout (hroom.inside hcount hin).starts
    rw [hret] at halloc
    cases halloc
  · constructor
    · rintro ⟨r, shm', hret, hok, -⟩
      rw [halloc] at hret
      cases hret
      exact .inr (.inr (hok _ rfl).2)
    · intro hroom
      refine ⟨_, _, halloc, fun header hh => ?_, fun e he => by cases he⟩
      cases hh
      exact hroom.inside hcount hin

end

theorem block_inside_second : ∃ evs s, Run step Fits started evs s ∧ s.recs.length = 1 ∧ Room s.recs 8 ∧
    ∃ r shm', alloc_stats s.shm (str "app.m.small") none 8 = some (r, shm') ∧ ∀ header, r = .ok header → Inside header 8 := by
  obtain ⟨hname, s, hst⟩ := first_get
  have hfit : Fits started (.get none small) := by
    intro n hn
    rw [hname] at hn
    cases hn
    exact ⟨by decide, fun _ => .inr (.inr (by decide +kernel))⟩
  have hrun : Run step Fits started [(.get none small, .ok 4188)] s := .snoc .nil hfit hst
  have hrecs := first_recs hst
  have hroom : Room s.recs 8 := by
    rw [hrecs]
    exact .inr (.inr (by decide +kernel))
  obtain ⟨-, hnext⟩ := block_inside_iff started_fresh hrun (str "app.m.small") none 8
  obtain ⟨r, shm', hret, hin, -⟩ := hnext.2 hroom
  exact ⟨_, s, hrun, by rw [hrecs]; rfl, hroom, r, shm', hret, hin⟩

/-- A type that is as large as the segment. -/
def large : NR_stats_type := { name := str "large", get_lib_name := none, size := 327679 }

/-- The first block that is handed out is not in the segment. -/
theorem block_inside_fails :
    Fresh started ∧ (NR_stats_get started none large true).map Prod.fst = some (.ok 4188) ∧
      (alloc_stats started.shm (str "app.large") (some []) large.size).map Prod.fst = some (.ok 4) ∧
        ¬ Inside 4 large.size := by
  refine ⟨started_fresh, by decide +kernel, by decide +kernel, fun h => ?_⟩
  have hle : (4 : Int) + bufferOffset + large.size.toNat ≤ MAX_NR_STATS_SIZE := h.2
  exact absurd hle (by decide +kernel)

/-! ## Blocks are stable and disjoint -/

section
variable {s₀ s s' : Process} {evs : List (Op × Except Status Int)} {sizeOf : Bytes → UInt32} {app : Option Bytes}

/-- The size used for a stored name is always the same. -/
def Uses (sizeOf : Bytes → UInt32) (s : Process) : Op → Prop
  | .get module_name type => ∀ n, storedName s.app module_name type = some n → 0 ∉ n ∧ type.size = sizeOf n
  | .fill stats data => Owns s.recs stats data

/-- The record that a call comes to make finds room, or none can start. -/
def HasRoom (s : Process) : Op → Prop
  | .get module_name type => ∀ n, Makes s module_name type n → Room s.recs type.size
  | .fill _ _ => True

/-- Every name keeps the address it was first handed out, where `find_stats`
finds it. Anything can be written into a block, its header included, and changes
no byte of another one. `sanity_check` accepts exactly the addresses that were
handed out. -/
structure Stable (sizeOf : Bytes → UInt32) (app : Option Bytes) (evs : List (Op × Except Status Int)) (s : Process) :
    Prop where
  same : ∀ n a a', Handed app evs n a → Handed app evs n a' → a = a'
  writes : ∀ n a (b : Int) (bs : Bytes), Handed app evs n a → a - bufferOffset ≤ b →
    b + bs.length ≤ a + (sizeOf n).toNat → ∃ shm, store s.shm b bs = some shm ∧
      ∀ n' a', n' ≠ n → Handed app evs n' a' → ∀ x, a' - bufferOffset ≤ x → x < a' + (sizeOf n').toNat → shm x = s.shm x
  find : ∀ n a, Handed app evs n a → find_stats s.shm n = some (a - bufferOffset)
  sanity : ∀ p, sanity_check s.shm p = .ok ↔ ∃ n, Handed app evs n p

/-- What holds where each record found room. -/
structure Good (sizeOf : Bytes → UInt32) (app : Option Bytes) (evs : List (Op × Except Status Int)) (s : Process) :
    Prop where
  known : Known app evs s
  inside : AllInside s
  sizes : ∀ r ∈ s.recs, r.2 = sizeOf r.1

theorem Good.stable (h : Good sizeOf app evs s) : Stable sizeOf app evs s := by
  have hl := h.known.layout
  have hfind : ∀ n a, Handed app evs n a → find_stats s.shm n = some (a - bufferOffset) := by
    intro n a ha
    obtain ⟨i, hi, hn, rfl⟩ := (h.known.handed n a).1 ha
    exact hl.find.2 ⟨i, hi, hn, by omega⟩
  refine ⟨fun n a a' ha ha' => ?_, fun n a b bs ha h₁ h₂ => ?_, hfind, fun p => ?_⟩
  · have heq := hfind n a ha
    rw [hfind n a' ha'] at heq
    have := Option.some.inj heq
    omega
  · obtain ⟨i, hi, rfl, rfl⟩ := (h.known.handed n a).1 ha
    rw [← h.sizes s.recs[i] (List.getElem_mem hi)] at h₂
    obtain ⟨hge, hle⟩ := h.inside.inside i hi
    have hin : Mapped b bs.length := ⟨by omega, by omega⟩
    refine ⟨_, store_eq_some.2 ⟨hin, rfl⟩, fun n' a' hne ha' x hx₁ hx₂ => ?_⟩
    obtain ⟨j, hj, rfl, rfl⟩ := (h.known.handed n' a').1 ha'
    have hij : j ≠ i := by
      rintro rfl
      exact hne rfl
    rw [← h.sizes s.recs[j] (List.getElem_mem hj)] at hx₂
    apply Mem.write_outside
    have hapart := blocks_apart hj hi hij (x := x) (by omega) (by omega)
    omega
  · rw [hl.sanity]
    constructor
    · rintro ⟨i, hi, rfl⟩
      exact ⟨s.recs[i].1, (h.known.handed _ _).2 ⟨i, hi, rfl, rfl⟩⟩
    · rintro ⟨n, hn⟩
      obtain ⟨i, hi, -, rfl⟩ := (h.known.handed n p).1 hn
      exact ⟨i, hi, rfl⟩

theorem Good.step (hs : ∀ n, (sizeOf n).toNat < 2 ^ 31) (h : Good sizeOf app evs s) {op : Op} (hu : Uses sizeOf s op)
    (hroom : HasRoom s op) : ∃ r s', Stats.step s op = some (r, s') ∧ Good sizeOf app (evs ++ [(op, r)]) s' := by
  cases op with
  | get module_name type =>
    obtain ⟨r, s', hst, hinside⟩ := h.inside.get (fun n hn => (hu n hn).1) hroom
    obtain ⟨hknown, hrecs⟩ := h.known.get (fun n hn => ⟨(hu n hn).1, (hu n hn).2 ▸ hs n⟩) hst
    refine ⟨r, s', hst, hknown, hinside, fun rec hrec => ?_⟩
    rcases hrecs with hsame | ⟨n, hm, hadd⟩
    · rw [hsame] at hrec
      exact h.sizes rec hrec
    · rw [hadd] at hrec
      rcases List.mem_append.1 hrec with hrec | hrec
      · exact h.sizes rec hrec
      · rw [List.mem_singleton.1 hrec]
        exact (hu n hm.stored).2
  | fill stats data =>
    obtain ⟨hst, hinside⟩ := h.inside.fill hu
    exact ⟨_, _, hst, h.known.fill hu hst, hinside, h.sizes⟩

theorem run_good (hs : ∀ n, (sizeOf n).toNat < 2 ^ 31) (h₀ : Fresh s₀)
    (hrun : Run step (fun s op => Uses sizeOf s op ∧ HasRoom s op) s₀ evs s) : Good sizeOf s₀.app evs s := by
  induction hrun with
  | nil => exact ⟨h₀.known, h₀.allInside, by simp [h₀.recs]⟩
  | snoc _ hok hst ih =>
    obtain ⟨r, s', hst', hgood⟩ := ih.step hs hok.1 hok.2
    rw [hst] at hst'
    cases hst'
    exact hgood

/-- A record that was made and can be written whole has found room. -/
theorem Good.room (hs : ∀ n, (sizeOf n).toNat < 2 ^ 31) (h : Good sizeOf app evs s) {op : Op} (hu : Uses sizeOf s op)
    {r : Except Status Int} (hst : Stats.step s op = some (r, s')) (hstable : Stable sizeOf app (evs ++ [(op, r)]) s') :
    HasRoom s op := by
  cases op with
  | fill stats data => trivial
  | get module_name type =>
    intro n hm
    have hcases := get_cases h.known.layout (fun n hn => (hu n hn).1) fun n hm _ _ => (hu n hm.stored).2 ▸ hs n
    rw [Stats.step] at hst
    rcases hcases with ⟨-, -, -, -, -, hnone⟩ | ⟨r', types, s₁, hst', hcases⟩
    · rw [hst] at hnone
      cases hnone
    rw [hst] at hst'
    cases hst'
    rcases hcases with ⟨e, rfl, rfl, hfull⟩ | ⟨i, hi, hstored, rfl, rfl⟩ | ⟨n', libname, hm', -, -, rfl, -, rfl⟩
    · rcases hfull n hm with hfull | hfull
      · exact .inl hfull
      · exact .inr (.inl hfull)
    · rw [hm.stored] at hstored
      exact absurd (List.mem_map.2 ⟨_, List.getElem_mem hi, (Option.some.inj hstored).symm⟩) hm.new
    · have hhanded : Handed app (evs ++ [(.get module_name type, .ok (start s.recs s.recs.length + bufferOffset))]) n
          (start s.recs s.recs.length + bufferOffset) :=
        handed_snoc.2 (.inr ⟨_, _, rfl, rfl, h.known.same ▸ hm.stored⟩)
      -- writing the whole block does not fault
      obtain ⟨shm, hstore, -⟩ := hstable.writes n _ (start s.recs s.recs.length)
        (List.replicate (bufferOffset + (sizeOf n).toNat) 0) hhanded (by omega) (by rw [List.length_replicate]; omega)
      obtain ⟨⟨-, hle⟩, -⟩ := store_eq_some.1 hstore
      rw [List.length_replicate, ← (hu n hm.stored).2] at hle
      exact .inr (.inr (by omega))

/-- In every run in which each new record finds room, the blocks are stable and
apart; and the next call returns and leaves them so if and only if it makes no
record, or one that finds room. -/
theorem blocks_stable_iff (hs : ∀ n, (sizeOf n).toNat < 2 ^ 31) (h₀ : Fresh s₀)
    (hrun : Run step (fun s op => Uses sizeOf s op ∧ HasRoom s op) s₀ evs s) :
    Stable sizeOf s₀.app evs s ∧ ∀ op, Uses sizeOf s op →
      ((∃ r s', step s op = some (r, s') ∧ Stable sizeOf s₀.app (evs ++ [(op, r)]) s') ↔ HasRoom s op) := by
  have h := run_good hs h₀ hrun
  refine ⟨h.stable, fun op hu => ⟨fun ⟨r, s', hst, hstable⟩ => h.room hs hu hst hstable, fun hroom => ?_⟩⟩
  obtain ⟨r, s', hst, hgood⟩ := h.step hs hu hroom
  exact ⟨r, s', hst, hgood.stable⟩

end

theorem Uses.small {s : Process} (h : s.app = some (str "app")) {module_name : Option Bytes}
    (hm : module_name ∈ [none, some (str "m")]) : Uses (fun _ => 8) s (.get module_name small) := by
  have hboth : ∀ m ∈ [none, some (str "m")], ∀ n ∈ storedName (some (str "app")) m Stats.small, 0 ∉ n := by decide +kernel
  intro n hn
  rw [h] at hn
  exact ⟨hboth _ hm n hn, rfl⟩

/-- Two blocks: all of the first one can be written, and the second one stays as
it is. -/
theorem blocks_stable_two : ∃ s, Run step (fun s op => Uses (fun _ => 8) s op ∧ HasRoom s op) started
      [(.get none small, .ok 4188), (.get (some (str "m")) small, .ok 12572)] s ∧
    ∃ shm, store s.shm 4188 [1, 2, 3, 4, 5, 6, 7, 8] = some shm ∧
      ∀ x, 12572 - (bufferOffset : Int) ≤ x → x < 12572 + 8 → shm x = s.shm x := by
  have hex : (step started (.get none small)).any (fun x => x.1 = .ok 4188 && x.2.app = started.app &&
      (step x.2 (.get (some (str "m")) small)).any fun y => y.1 = .ok 12572) = true := by decide +kernel
  obtain ⟨⟨r₁, s₁⟩, hst₁, hx⟩ := (Option.any_eq_true _ _).1 hex
  rw [Bool.and_eq_true, Bool.and_eq_true, decide_eq_true_eq, decide_eq_true_eq] at hx
  obtain ⟨⟨rfl, happ⟩, hsecond⟩ := hx
  obtain ⟨⟨r₂, s₂⟩, hst₂, hr⟩ := (Option.any_eq_true _ _).1 hsecond
  obtain rfl : r₂ = .ok 12572 := of_decide_eq_true hr
  have hroom₁ : HasRoom started (.get none small) := fun _ _ => .inr (.inr (by decide +kernel))
  have hroom₂ : HasRoom s₁ (.get (some (str "m")) small) := by
    intro _ _
    rw [first_recs hst₁]
    exact .inr (.inr (by decide +kernel))
  have hrun : Run step (fun s op => Uses (fun _ => 8) s op ∧ HasRoom s op) started
      [(.get none small, .ok 4188), (.get (some (str "m")) small, .ok 12572)] s₂ :=
    .snoc (.snoc .nil ⟨.small rfl (by simp), hroom₁⟩ hst₁) ⟨.small happ (by simp), hroom₂⟩ hst₂
  obtain ⟨h, -⟩ := blocks_stable_iff (fun _ => by decide) started_fresh hrun
  have hhanded : Handed started.app [(.get none small, .ok 4188), (.get (some (str "m")) small, .ok 12572)]
      (str "app.small") 4188 := ⟨none, small, by simp, by decide +kernel⟩
  have hhanded' : Handed started.app [(.get none small, .ok 4188), (.get (some (str "m")) small, .ok 12572)]
      (str "app.m.small") 12572 := ⟨some (str "m"), small, by simp, by decide +kernel⟩
  obtain ⟨shm, hstore, hother⟩ := h.writes _ _ 4188 [1, 2, 3, 4, 5, 6, 7, 8] hhanded (by decide) (by decide)
  exact ⟨s₂, hrun, shm, hstore, hother _ _ (by decide) hhanded'⟩

/-- A type whose record leaves less than a header to the end of the segment. -/
def broad : NR_stats_type := { name := str "broad", get_lib_name := none, size := 318592 }

def broadSizes (name : Bytes) : UInt32 := if name = str "app.broad" then 318592 else 8

/-- The first block is in the segment and the second one starts in it, and the
call that makes it faults. -/
theorem blocks_stable_fails : Fresh started ∧ ∃ s, Run step (Uses broadSizes) started [(.get none broad, .ok 4188)] s ∧
    Uses broadSizes s (.get none small) ∧ find_free_wrapper s.shm ≤ MAX_NR_STATS_SIZE ∧ step s (.get none small) = none := by
  have hex : (step started (.get none broad)).any (fun x => x.1 = .ok 4188 && x.2.app = started.app &&
      find_free_wrapper x.2.shm ≤ MAX_NR_STATS_SIZE && (step x.2 (.get none small)).isNone) = true := by decide +kernel
  obtain ⟨⟨r, s⟩, hst, hx⟩ := (Option.any_eq_true _ _).1 hex
  rw [Bool.and_eq_true, Bool.and_eq_true, Bool.and_eq_true, decide_eq_true_eq, decide_eq_true_eq, decide_eq_true_eq] at hx
  obtain ⟨⟨⟨rfl, happ⟩, hin⟩, hnone⟩ := hx
  have hbroad : ∀ n ∈ storedName started.app none broad, 0 ∉ n ∧ broad.size = broadSizes n := by decide +kernel
  have hsmall : ∀ n ∈ storedName started.app none small, 0 ∉ n ∧ small.size = broadSizes n := by decide +kernel
  refine ⟨started_fresh, s, .snoc .nil hbroad hst, ?_, hin, Option.isNone_iff_eq_none.1 hnone⟩
  intro n hn
  rw [happ] at hn
  exact hsmall n hn

end Nrappkit.Stats
