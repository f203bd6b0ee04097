import Nrappkit.Stats.Board
/-!
# The functions on a segment and on its board

Each function answers the same on a segment as on the board that the segment
shows, and leaves the segment showing what it leaves on the board.
-/
open Lib

namespace Nrappkit.Stats

section
variable {g : Segment} {k : Board} {i : Nat} {e : Entry Bytes Int Block} {stats : Int}

/-! ## Writing to a block -/

/-- The data of a record is apart from every header. -/
theorem data_off_headers {recs : List (Bytes × UInt32)} {i j : Nat} (hi : i < recs.length) (_ : j < recs.length) :
    start recs j + bufferOffset ≤ start recs i + bufferOffset ∨
      start recs i + bufferOffset + recs[i].2.toNat ≤ start recs j := by
  rcases Nat.lt_or_ge i j with hij | hji
  · have hap := start_apart hi hij
    have hspan := buffer_le_span recs[i]
    omega
  · have hmono : start recs j ≤ start recs i := start_mono hji
    omega

/-- The data of a record ends where the next one starts, or before. -/
theorem data_below_end {recs : List (Bytes × UInt32)} {i : Nat} (hi : i < recs.length) :
    start recs i + bufferOffset + recs[i].2.toNat ≤ start recs recs.length := by
  have hap := start_apart hi hi
  have hspan := buffer_le_span recs[i]
  omega

theorem Shows.write (h : Shows g k) (hd : k.deref stats = some e) {f : Bytes → Bytes} {bytes : Bytes}
    (hlen : bytes.length ≤ e.value.data.length) (hf : f e.value.data = bytes ++ e.value.data.drop bytes.length) :
    Shows { g with shm := g.shm.write stats bytes } (k.change stats (Block.onData f)) := by
  obtain ⟨rfl, i, hi, hh⟩ := h.deref.1 hd
  have hlt := hh.lt
  have hsize := hh.size hh.lt
  rw [hsize] at hlen
  refine ⟨?_, h.inside, fun x hx => ?_, ?_, fun j e' he' => ?_⟩
  · exact h.layout.fill ⟨i, hlt, hh.handle, hlen⟩
  · have hend := data_below_end hlt
    have hx : start g.recs g.recs.length ≤ x := hx
    rw [hh.handle]
    dsimp only
    rw [Mem.write_outside (by omega)]
    exact h.clean x hx
  · rw [Catalog.change, List.length_map, h.length]
  · rw [Catalog.change, List.getElem?_map, Option.map_eq_some_iff] at he'
    obtain ⟨e₀, he₀, rfl⟩ := he'
    have hh₀ := h.holds j e₀ he₀
    have hlt₀ := hh₀.lt
    have hheader := data_off_headers hlt hlt₀
    have hlib : cstr (g.shm.write e.handle bytes) (start g.recs j + libnameOffset) PATH_MAX =
        cstr g.shm (start g.recs j + libnameOffset) PATH_MAX := by
      refine cstr_congr fun x h₁ h₂ => Mem.write_outside ?_
      rw [hh.handle]
      unfold libnameOffset NR_MAX_STATS_NAME NR_MAX_STATS_TYPE_NAME at h₁ h₂
      unfold PATH_MAX at h₂
      unfold bufferOffset at hheader ⊢
      omega
    by_cases hij : j = i
    · subst hij
      rw [hi, Option.some.injEq] at he₀
      subst he₀
      rw [Entry.change, if_pos rfl]
      refine ⟨hlt, hh.name, hh.handle, hlib.trans hh.libname, ?_⟩
      simp only [Block.onData]
      rw [hf, hh.handle, Mem.read_write_append hlen, hh.data, Mem.drop_read]
    · have hne : e₀.handle ≠ e.handle := by
        rw [hh₀.handle, hh.handle]
        rcases Nat.lt_or_gt_of_ne hij with hji | hji
        · have hap := start_apart hlt₀ hji
          have hspan := buffer_le_span g.recs[j]
          unfold bufferOffset at hspan ⊢
          omega
        · have hap := start_apart hlt hji
          have hspan := buffer_le_span g.recs[i]
          unfold bufferOffset at hspan ⊢
          omega
      rw [Entry.change, if_neg hne]
      refine ⟨hlt₀, hh₀.name, hh₀.handle, hlib.trans hh₀.libname, hh₀.data.trans ?_⟩
      refine (Mem.read_congr fun x h₁ h₂ => Mem.write_outside ?_).symm
      rw [hh.handle]
      have hap := blocks_apart hlt₀ hlt hij (x := x) (by omega) h₂
      omega

/-! ## A new record -/

theorem cstr_eq (shm : Mem) (a : Int) (n : Nat) : cstr shm a n = readString (shm.read a n) := rfl

/-- The size and the count are not in `libname`. -/
theorem read_libname {m : Mem} {header : Int} {size count : UInt32} (hh : FIRSTWRAPPER ≤ header) :
    ((m.write32 (header + sizeOffset) size).write32 0 count).read (header + libnameOffset) PATH_MAX =
      m.read (header + libnameOffset) PATH_MAX := by
  unfold FIRSTWRAPPER at hh
  refine Mem.read_congr fun x h₁ h₂ => ?_
  unfold libnameOffset NR_MAX_STATS_NAME NR_MAX_STATS_TYPE_NAME at h₁ h₂
  unfold PATH_MAX at h₂
  rw [Mem.write32_outside (by omega), Mem.write32_outside (by unfold sizeOffset; omega)]

/-- The name of the library is read back. -/
theorem writeRecord_libname {shm : Mem} {header : Int} {name : Bytes} {libname : Option Bytes} {size : UInt32}
    (hh : FIRSTWRAPPER ≤ header) (hl : ∀ l, libname = some l → 0 ∉ l ∧ l.length < PATH_MAX) :
    cstr (writeRecord shm header name libname size) (header + libnameOffset) PATH_MAX = some (libname.getD []) := by
  rw [cstr_eq]
  cases libname with
  | none =>
    have hone : ([0] : Bytes).length ≤ PATH_MAX := by
      rw [List.length_singleton, PATH_MAX]
      omega
    have hempty : ∀ rest : Bytes, readString ([] ++ 0 :: rest) = some [] := fun _ => readString_append List.not_mem_nil
    rw [writeRecord, read_libname hh, Mem.read_write_append hone]
    exact hempty _
  | some l =>
    obtain ⟨h0, hlen⟩ := hl l rfl
    obtain ⟨n, hn⟩ : ∃ n, PATH_MAX - l.length = n + 1 := ⟨PATH_MAX - l.length - 1, by omega⟩
    have hcopy : strncpy l PATH_MAX = l ++ 0 :: List.replicate n 0 := by
      rw [strncpy, List.take_of_length_le (Nat.le_of_lt hlen), hn, List.replicate_succ]
    have hsame : ((shm.write header (strncpy name NR_MAX_STATS_NAME)).write (header + libnameOffset) (strncpy l PATH_MAX)).read
        (header + libnameOffset) (strncpy l PATH_MAX).length = strncpy l PATH_MAX := Mem.read_write_same
    rw [strncpy_length] at hsame
    rw [writeRecord, read_libname hh, hsame, hcopy]
    exact readString_append h0

section
variable {name : Bytes} {libname : Option Bytes} {size : UInt32}

/-- A new record writes its own header, and the count. -/
theorem record_outside {x : Int} (h₁ : FIRSTWRAPPER ≤ x)
    (h₂ : x < start g.recs g.recs.length ∨ start g.recs g.recs.length + bufferOffset ≤ x) :
    writeRecord g.shm (start g.recs g.recs.length) name libname size x = g.shm x := by
  unfold FIRSTWRAPPER at h₁
  exact writeRecord_outside h₂ (.inr h₁)

/-- What is behind the header was zero and stays so. -/
theorem record_clean (hclean : ∀ x, start g.recs g.recs.length ≤ x → g.shm x = 0) {x : Int}
    (hx : start g.recs g.recs.length + bufferOffset ≤ x) :
    writeRecord g.shm (start g.recs g.recs.length) name libname size x = 0 := by
  have hfirst := first_le_start g.recs g.recs.length
  rw [record_outside (by omega) (.inr hx)]
  exact hclean x (by omega)

/-- The records there are keep what they hold. -/
theorem Holds.kept (hh : Holds g i e) : Holds { shm := writeRecord g.shm (start g.recs g.recs.length) name libname size,
                                                recs := g.recs ++ [(name, size)] } i e := by
  have hlt := hh.lt
  have hge := first_le_start g.recs i
  have hend := data_below_end hlt
  have hstart : start (g.recs ++ [(name, size)]) i = start g.recs i := start_append g.recs _ (Nat.le_of_lt hlt)
  have hrec : (g.recs ++ [(name, size)])[i]? = some g.recs[i] := by
    rw [List.getElem?_append_left hlt, List.getElem?_eq_getElem hlt]
  obtain ⟨hi, hrec⟩ := List.getElem?_eq_some_iff.1 hrec
  refine ⟨hi, ?_, ?_, ?_, ?_⟩
  · rw [hrec, hh.name]
  · rw [hstart, hh.handle]
  · rw [hstart, ← hh.libname]
    refine cstr_congr fun x h₁ h₂ => record_outside ?_ (.inl ?_)
    · unfold libnameOffset NR_MAX_STATS_NAME NR_MAX_STATS_TYPE_NAME at h₁
      omega
    · unfold libnameOffset NR_MAX_STATS_NAME NR_MAX_STATS_TYPE_NAME PATH_MAX at h₂
      unfold bufferOffset at hend
      omega
  · rw [hstart, hrec, hh.data]
    refine (Mem.read_congr fun x h₁ h₂ => record_outside ?_ (.inl ?_)).symm
    · unfold bufferOffset at h₁
      omega
    · omega

/-- The new record holds its names and a block of zeros. -/
theorem Holds.added (hclean : ∀ x, start g.recs g.recs.length ≤ x → g.shm x = 0)
    (hl : ∀ l, libname = some l → 0 ∉ l ∧ l.length < PATH_MAX) :
    Holds { shm := writeRecord g.shm (start g.recs g.recs.length) name libname size, recs := g.recs ++ [(name, size)] }
      g.recs.length { name, handle := start g.recs g.recs.length + bufferOffset,
                      value := { libname := libname.getD [], data := List.replicate size.toNat 0 } } := by
  have hstart : start (g.recs ++ [(name, size)]) g.recs.length = start g.recs g.recs.length :=
    start_append g.recs _ (Nat.le_refl _)
  have hrec : (g.recs ++ [(name, size)])[g.recs.length]? = some (name, size) := List.getElem?_concat_length
  obtain ⟨hi, hrec⟩ := List.getElem?_eq_some_iff.1 hrec
  refine ⟨hi, ?_, ?_, ?_, ?_⟩
  · rw [hrec]
  · rw [hstart]
  · rw [hstart]
    exact writeRecord_libname (first_le_start g.recs g.recs.length) hl
  · rw [hstart, hrec]
    refine (List.eq_replicate_iff.2 ⟨Mem.read_length, fun b hb => ?_⟩).symm
    obtain ⟨n, -, rfl⟩ := List.mem_map.1 hb
    exact record_clean hclean (by omega)

theorem Shows.record (h : Shows g k) (hlen : name.length < NR_MAX_STATS_NAME) (h0 : 0 ∉ name)
    (hnew : name ∉ g.recs.map Prod.fst) (hin : Inside (start g.recs g.recs.length) size)
    (hroom : g.recs.length < NR_MAX_STATS_SHMS) (hl : ∀ l, libname = some l → 0 ∉ l ∧ l.length < PATH_MAX) :
    Shows { shm := writeRecord g.shm (start g.recs g.recs.length) name libname size, recs := g.recs ++ [(name, size)] }
      (k.add { name, handle := start g.recs g.recs.length + bufferOffset,
               value := { libname := libname.getD [], data := List.replicate size.toNat 0 } }) := by
  have hname : name ∉ k.entries.map Entry.name := by
    rw [h.names]
    exact hnew
  have hhandle : start g.recs g.recs.length + bufferOffset ∉ k.entries.map Entry.handle := by
    intro hmem
    obtain ⟨e, he, heq⟩ := List.mem_map.1 hmem
    obtain ⟨i, -, hh⟩ := h.mem he
    rw [hh.handle] at heq
    have hend := data_below_end hh.lt
    unfold bufferOffset at hend heq
    omega
  let added : Entry Bytes Int Block :=
    ⟨name, start g.recs g.recs.length + bufferOffset, ⟨libname.getD [], List.replicate size.toNat 0⟩⟩
  have hentries : (k.add added).entries = k.entries ++ [added] := Catalog.entries_add hname hhandle
  refine ⟨h.layout.record hlen h0 hnew hin.small hroom, inside_snoc h.inside hin, fun x hx => ?_, ?_, fun i e he => ?_⟩
  · dsimp only at hx
    rw [List.length_append, List.length_singleton, start_succ (by simp), start_append g.recs _ (Nat.le_refl _),
      List.getElem_concat_length rfl] at hx
    have hspan := buffer_le_span (name, size)
    exact record_clean h.clean (by omega)
  · rw [hentries, List.length_append, List.length_append, h.length]
    rfl
  · rw [hentries] at he
    have hi : i < g.recs.length + 1 := by
      have hlt := (List.getElem?_eq_some_iff.1 he).1
      rwa [List.length_append, List.length_singleton, h.length] at hlt
    rcases Nat.lt_succ_iff_lt_or_eq.1 hi with hlt | rfl
    · rw [List.getElem?_append_left (by rw [h.length]; exact hlt)] at he
      exact (h.holds i e he).kept
    · rw [← h.length, List.getElem?_concat_length, Option.some.injEq] at he
      subst he
      exact Holds.added h.clean hl

end

/-! ## Types and sizes -/

/-- The types of one name have one size. -/
def OneSize (sizeOf : Bytes → UInt32) (types : List NR_stats_type) : Prop := ∀ type ∈ types, type.size = sizeOf type.name

/-- The size of a record is that of the type its name leads to. -/
def Fitted (sizeOf : Bytes → UInt32) (g : Segment) : Prop :=
  ∀ r ∈ g.recs, ∀ type_name, get_type_name_from_name r.1 = .ok type_name → r.2 = sizeOf type_name

theorem type_from_name {types : List NR_stats_type} {name : Bytes} {type : NR_stats_type}
    (h : get_type_from_name types name = .ok type) : get_type_name_from_name name = .ok type.name ∧ type ∈ types := by
  unfold get_type_from_name at h
  split at h
  · cases h
  rename_i type_name hname
  split at h
  · cases h
  rename_i type' hfind
  cases h
  obtain ⟨i, hi, hget⟩ := Option.bind_eq_some_iff.1 hfind
  obtain ⟨hlt, hp, -⟩ := List.findIdx?_eq_some_iff_getElem.1 hi
  obtain ⟨-, rfl⟩ := List.getElem?_eq_some_iff.1 hget
  rw [hname, of_decide_eq_true hp]
  exact ⟨rfl, List.getElem_mem hlt⟩

theorem OneSize.register {sizeOf : Bytes → UInt32} {types types' : List NR_stats_type} (h : OneSize sizeOf types)
    {type : NR_stats_type} (ht : type.size = sizeOf type.name) (hr : register_type types type = .ok types') :
    OneSize sizeOf types' := by
  have hmem : ∀ t ∈ types', t ∈ types ∨ t = type := by
    unfold register_type at hr
    split at hr
    · split at hr
      · cases hr
      · cases hr
        intro t hmem
        simpa using hmem
    · cases hr
      exact fun t hmem => List.mem_or_eq_of_mem_set hmem
  intro t hin
  rcases hmem t hin with hold | rfl
  · exact h t hold
  · exact ht

/-- The type that a block's name leads to has the size of the block. -/
theorem Holds.type_size {sizeOf : Bytes → UInt32} (hh : Holds g i e) (hf : Fitted sizeOf g) {types : List NR_stats_type}
    (hk : OneSize sizeOf types) {type : NR_stats_type} (h : get_type_from_name types e.name = .ok type) :
    e.value.data.length = type.size.toNat := by
  obtain ⟨hname, hmem⟩ := type_from_name h
  rw [hh.name] at hname
  rw [hh.size hh.lt, hf _ (List.getElem_mem hh.lt) _ hname, hk type hmem]

/-! ## The functions -/

variable {sizeOf : Bytes → UInt32} {types : List NR_stats_type} (resets : Resets)

/-- Writing to a block does not fault. -/
theorem Shows.store_data (h : Shows g k) (hd : k.deref stats = some e) {bytes : Bytes}
    (hlen : bytes.length ≤ e.value.data.length) : Stats.store g.shm stats bytes = some (g.shm.write stats bytes) := by
  have hin : Mapped (stats + (0 : Nat)) bytes.length := h.mapped hd (by omega)
  rw [Int.natCast_zero, Int.add_zero] at hin
  rw [Stats.store, if_pos hin]

theorem Shows.reset (h : Shows g k) (hf : Fitted sizeOf g) (hk : OneSize sizeOf types) (stats : Int) (now : UInt64) :
    ∃ shm, NR_stats_reset resets g.shm types stats now = some ((k.reset resets types stats now).1, shm) ∧
      Shows { g with shm } (k.reset resets types stats now).2 := by
  unfold NR_stats_reset Board.reset
  cases hd : k.deref stats with
  | none =>
    rw [h.bad_args hd]
    exact ⟨_, rfl, h⟩
  | some e =>
    obtain ⟨rfl, i, -, hh⟩ := h.deref.1 hd
    have hback : start g.recs i + bufferOffset - bufferOffset = start g.recs i := by omega
    have hname : cstr g.shm (e.handle - bufferOffset) NR_MAX_STATS_NAME = some e.name := by
      rw [hh.handle, hback, hh.name]
      exact h.layout.name i hh.lt
    rw [h.sanity.2 ⟨e, hd⟩, hname]
    dsimp only
    cases ht : get_type_from_name types e.name with
    | error r => exact ⟨_, rfl, h⟩
    | ok type =>
      have hsize := hh.type_size hf hk ht
      have hread : g.shm.read e.handle type.size.toNat = e.value.data := by
        rw [← hsize, hh.size hh.lt, hh.handle, ← hh.data]
      have hlen := resets.length_eq type now e.value.data hsize
      dsimp only
      rw [hread, h.store_data hd (by rw [hlen, hsize])]
      refine ⟨_, rfl, h.write hd (by rw [hlen, hsize]) ?_⟩
      rw [List.drop_of_length_le (by rw [hlen, hsize]), List.append_nil]

theorem Shows.clear (h : Shows g k) (hf : Fitted sizeOf g) (hk : OneSize sizeOf types) (stats : Int) (now : UInt64) :
    ∃ shm, NR_stats_clear resets g.shm types stats now = some ((k.clear resets types stats now).1, shm) ∧
      Shows { g with shm } (k.clear resets types stats now).2 := by
  unfold NR_stats_clear Board.clear
  cases hd : k.deref stats with
  | none =>
    rw [h.bad_args hd]
    exact ⟨_, rfl, h⟩
  | some e =>
    obtain ⟨rfl, i, -, hh⟩ := h.deref.1 hd
    have hlt := hh.lt
    have hback : start g.recs i + bufferOffset - bufferOffset = start g.recs i := by omega
    have hsmall := h.layout.small _ (List.getElem_mem hlt)
    have hsize : sizeT (g.shm.read32 (e.handle - bufferOffset + sizeOffset)) = e.value.data.length := by
      rw [hh.handle, hback, h.layout.size i hlt, sizeT, if_pos hsmall, hh.size hh.lt]
    rw [h.sanity.2 ⟨e, hd⟩]
    dsimp only
    rw [hsize]
    have hzeroed : Shows { g with shm := g.shm.write e.handle (List.replicate e.value.data.length 0) }
        (k.change e.handle (Block.onData fun data => List.replicate data.length 0)) := by
      refine h.write hd (by rw [List.length_replicate]) ?_
      rw [List.length_replicate, List.drop_length, List.append_nil]
    obtain ⟨shm, hreset, hshows⟩ := hzeroed.reset resets hf hk e.handle now
    dsimp only at hreset
    rw [h.store_data hd (by rw [List.length_replicate]), Option.bind_eq_bind, Option.bind_some, hreset]
    exact ⟨shm, rfl, hshows⟩

theorem names_loop_eq {shm : Mem} {recs : List (Bytes × UInt32)} (h : Layout shm recs) {n i : Nat} (hn : i + n = recs.length) :
    (names_loop shm n (start recs i)).map (fun header => cstr shm header NR_MAX_STATS_NAME) =
      (recs.drop i).map fun r => some r.1 := by
  induction n generalizing i with
  | zero =>
    rw [List.drop_of_length_le (by omega)]
    rfl
  | succ n ih =>
    have hi : i < recs.length := by omega
    rw [names_loop, List.map_cons, h.name i hi, h.next hi, ih (by omega), List.drop_eq_getElem_cons hi, List.map_cons]

theorem Shows.get_names (h : Shows g k) (app : Option Bytes) :
    (NR_stats_get_names app g.shm).map (fun headers => headers.map fun header => cstr g.shm header NR_MAX_STATS_NAME) =
      if app = none then .error .R_FAILED else .ok (k.entries.map fun e => some e.name) := by
  unfold NR_stats_get_names
  split
  · rfl
  · have hloop := names_loop_eq h.layout (n := g.recs.length) (i := 0) (by omega)
    have hnames : (k.entries.map fun e => some e.name) = g.recs.map fun r => some r.1 := by
      have hmap := congrArg (List.map some) h.names
      rwa [List.map_map, List.map_map] at hmap
    rw [start_zero] at hloop
    rw [h.layout.count, hnames]
    exact congrArg Except.ok hloop

theorem Shows.get_by_name (h : Shows g k) (app : Option Bytes) (types : List NR_stats_type) (name : Bytes) :
    NR_stats_get_by_name app types g.shm name =
      if app = none then .error .R_FAILED
      else match k.find name with
        | none => .error .R_NOT_FOUND
        | some e => .ok ((get_type_from_name types name).toOption, e.handle) := by
  unfold NR_stats_get_by_name
  rw [h.find]
  cases k.find name with
  | none => rfl
  | some e =>
    have hback : e.handle - (bufferOffset : Int) + bufferOffset = e.handle := by omega
    rw [Option.map_some]
    dsimp only
    rw [hback]

theorem Shows.get_lib_name (h : Shows g k) (stats : Int) :
    (NR_stats_get_lib_name g.shm stats).map (fun libname => cstr g.shm libname PATH_MAX) =
      match k.deref stats with
      | none => .error .R_BAD_ARGS
      | some e => .ok (some e.value.libname) := by
  unfold NR_stats_get_lib_name
  cases hd : k.deref stats with
  | none =>
    rw [h.bad_args hd]
    rfl
  | some e =>
    obtain ⟨rfl, i, -, hh⟩ := h.deref.1 hd
    have hback : start g.recs i + bufferOffset - bufferOffset = start g.recs i := by omega
    rw [h.sanity.2 ⟨e, hd⟩]
    dsimp only
    rw [hh.handle, hback]
    exact congrArg Except.ok hh.libname

/-- What is asked for is a string, and has the size of its name. -/
structure Sized (sizeOf : Bytes → UInt32) (type : NR_stats_type) : Prop where
  size : type.size = sizeOf type.name
  string : 0 ∉ type.name
  nodot : 46 ∉ type.name
  libname : ∀ l, type.get_lib_name = some (.ok (some l)) → 0 ∉ l ∧ l.length < PATH_MAX

/-- What `NR_stats_get` is passed: strings; no name of 77 bytes, which would be
cut; and for a new record, that there is room in the segment or none can start. -/
structure Asks (sizeOf : Bytes → UInt32) (c : Statics) (g : Segment) (module_name : Option Bytes) (type : NR_stats_type)
    (create : Bool) : Prop where
  sized : Sized sizeOf type
  string : ∀ l, module_name = some l → 0 ∉ l
  whole : ∀ app, c.app = some app → (fullName app module_name type.name).length ≠ MAX_WHOLE_NAME + 1
  room : create = true → ∀ n, storedName c.app module_name type = some n → n ∉ g.recs.map Prod.fst → Room g.recs type.size

/-- The handle of the next record. -/
def freeHandle (g : Segment) : Int := start g.recs g.recs.length + bufferOffset

theorem fullName_string {app : Bytes} {module_name : Option Bytes} {type_name : Bytes} (ha : 0 ∉ app)
    (hm : ∀ l, module_name = some l → 0 ∉ l) (ht : 0 ∉ type_name) : 0 ∉ fullName app module_name type_name := by
  have hdot : str "." = [46] := by decide
  cases module_name with
  | none => simp [fullName, hdot, ha, ht]
  | some l => simp [fullName, hdot, ha, hm l rfl, ht]

theorem libname_string {type : NR_stats_type} (hs : Sized sizeOf type) {libname : Option Bytes}
    (h : type.get_lib_name.getD (.ok (some [])) = .ok libname) : ∀ l, libname = some l → 0 ∉ l ∧ l.length < PATH_MAX := by
  rintro l rfl
  cases hlib : type.get_lib_name with
  | none =>
    rw [hlib] at h
    cases h
    exact ⟨List.not_mem_nil, Nat.zero_lt_succ _⟩
  | some r =>
    rw [hlib] at h
    exact hs.libname l (hlib.trans (congrArg some h))

theorem Shows.get (h : Shows g k) (hf : Fitted sizeOf g) {c : Statics} (hk : OneSize sizeOf c.types)
    (happ : ∀ app, c.app = some app → 0 ∉ app) {module_name : Option Bytes} {type : NR_stats_type} {create : Bool}
    (ha : Asks sizeOf c g module_name type create) :
    ∃ r types g' k', NR_stats_get { app := c.app, shm := g.shm, types := c.types, recs := g.recs } module_name type create =
        some (r, { app := c.app, shm := g'.shm, types, recs := g'.recs }) ∧
      k.get (freeHandle g) c module_name type create = (r, types, k') ∧
      Shows g' k' ∧ Fitted sizeOf g' ∧ OneSize sizeOf types := by
  unfold NR_stats_get Board.get
  dsimp only
  cases hc : c.app with
  | none => exact ⟨_, _, g, _, rfl, rfl, h, hf, hk⟩
  | some app =>
  dsimp only
  cases hr : register_type c.types type with
  | error r => exact ⟨_, _, g, _, rfl, rfl, h, hf, hk⟩
  | ok types =>
  have hk' : OneSize sizeOf types := hk.register ha.sized.size hr
  dsimp only
  cases hn : compute_name app module_name type.name with
  | error r => exact ⟨_, _, g, _, rfl, rfl, h, hf, hk'⟩
  | ok name =>
  -- the name is the full one
  have hstored : storedName c.app module_name type = some name := by simp [storedName, hc, hn, Except.toOption]
  have hlen := storedName_length hstored
  have hname : name = fullName app module_name type.name := by
    rw [hc] at hstored
    exact storedName_whole hstored (ha.whole app hc)
  have h0 : 0 ∉ name := by
    rw [hname]
    exact fullName_string (happ app hc) ha.string ha.sized.string
  dsimp only
  rw [h.find]
  cases hfind : k.find name with
  | some e =>
    obtain ⟨he, -⟩ := Catalog.find_iff.1 hfind
    obtain ⟨i, -, hh⟩ := h.mem he
    have hback : e.handle - (bufferOffset : Int) = start g.recs i := by rw [hh.handle]; omega
    have hout := Layout.handOut (s := { app := some app, shm := g.shm, types, recs := g.recs }) h.layout hh.lt
    rw [Option.map_some]
    dsimp only
    rw [hback, hout, ← hh.handle]
    exact ⟨_, _, g, _, rfl, rfl, h, hf, hk'⟩
  | none =>
  have hnew : name ∉ g.recs.map Prod.fst := by
    rw [← h.names]
    exact Catalog.find_none.1 hfind
  rw [Option.map_none]
  dsimp only
  cases create with
  | false => exact ⟨_, _, g, _, rfl, rfl, h, hf, hk'⟩
  | true =>
  rw [if_pos rfl, if_pos rfl]
  cases hlib : type.get_lib_name.getD (.ok (some [])) with
  | error r => exact ⟨_, _, g, _, rfl, rfl, h, hf, hk'⟩
  | ok libname =>
  dsimp only
  rcases alloc_stats_cases g.shm name libname type.size with ⟨hal, hno⟩ | ⟨hcount, hin, halloc⟩
  · rw [hal, if_pos (h.full.2 hno)]
    exact ⟨_, _, g, _, rfl, rfl, h, hf, hk'⟩
  · have hfull : ¬ k.Full := fun hk => by
      rcases h.full.1 hk with hge | hgt
      · omega
      · omega
    rw [if_neg hfull]
    rw [h.layout.count] at hcount
    rw [h.layout.free] at hin halloc
    have hinside := (ha.room rfl name hstored hnew).inside hcount hin
    -- there is room, so the call does not fault
    obtain ⟨hout, -⟩ | ⟨-, hal⟩ := halloc
    · exact absurd hinside.starts hout
    rw [hal]
    have hshows := h.record hlen h0 hnew hinside hcount (libname_string ha.sized hlib)
    have hout := Layout.handOut (s := { app := some app, shm := writeRecord g.shm (start g.recs g.recs.length) name libname type.size,
                                        types, recs := g.recs ++ [(name, type.size)] }) hshows.layout (i := g.recs.length) (by simp)
    rw [start_append g.recs _ (Nat.le_refl _)] at hout
    dsimp only
    rw [hout]
    refine ⟨_, _, { shm := _, recs := _ }, _, rfl, rfl, hshows, fun r hr type_name hlast => ?_, hk'⟩
    rcases List.mem_append.1 hr with hr | hr
    · exact hf r hr type_name hlast
    · rw [List.mem_singleton.1 hr] at hlast ⊢
      rw [hname, type_name_of_full ha.sized.nodot] at hlast
      cases hlast
      exact ha.sized.size

/-- Bytes `off` to `off + n` of a block. -/
def Part (g : Segment) (stats : Int) (off n : Nat) : Prop :=
  ∃ i, ∃ hi : i < g.recs.length, stats = start g.recs i + bufferOffset ∧ off + n ≤ g.recs[i].2.toNat

/-- Where the blocks are does not depend on what is in them. -/
theorem Part.of_recs {g' : Segment} {off n : Nat} (h : Part g stats off n) (hr : g'.recs = g.recs) : Part g' stats off n := by
  obtain ⟨shm, recs⟩ := g
  obtain ⟨shm', recs'⟩ := g'
  subst hr
  exact h

/-- What is passed with an address is a part of a block, or at least an address
that has room for a header before it in the segment. -/
def Handles (sizeOf : Bytes → UInt32) (c : Statics) (g : Segment) : Use → Prop
  | .get module_name type create => Asks sizeOf c g module_name type create
  | .get_lib_name stats | .reset stats _ | .clear stats _ => bufferOffset ≤ stats ∧ stats ≤ MAX_NR_STATS_SIZE
  | .load stats off n => Part g stats off n
  | .store stats off bytes => Part g stats off bytes.length
  | .get_names | .get_by_name _ => True

theorem Shows.part (h : Shows g k) {off n : Nat} (hp : Part g stats off n) :
    ∃ e, k.deref stats = some e ∧ off + n ≤ e.value.data.length ∧ e.value.data = g.shm.read stats e.value.data.length := by
  obtain ⟨i, hi, rfl, hle⟩ := hp
  obtain ⟨e, he, hh⟩ := h.at hi
  refine ⟨e, h.deref.2 ⟨hh.handle, i, he, hh⟩, by rw [hh.size hh.lt]; exact hle, ?_⟩
  rw [hh.size hh.lt]
  exact hh.data

theorem Shows.store (h : Shows g k) {off : Nat} {bytes : Bytes} (hp : Part g stats off bytes.length) :
    Shows { g with shm := g.shm.write (stats + off) bytes } (k.change stats (Block.onData (splice off bytes))) := by
  obtain ⟨e, hd, hle, hdata⟩ := h.part hp
  -- the part before `off` is written as it is
  have hoff : (g.shm.read stats off).length = off := Mem.read_length
  have hwrite : g.shm.write (stats + off) bytes = g.shm.write stats (g.shm.read stats off ++ bytes) := by
    have happend : (g.shm.write stats (g.shm.read stats off)).write (stats + (g.shm.read stats off).length) bytes =
        g.shm.write stats (g.shm.read stats off ++ bytes) := Mem.write_append
    rwa [Mem.write_read, hoff] at happend
  have hlen : (g.shm.read stats off ++ bytes).length = off + bytes.length := by rw [List.length_append, hoff]
  rw [hwrite]
  refine h.write hd (by rw [hlen]; exact hle) ?_
  have htake : e.value.data.take off = g.shm.read stats off := by
    rw [hdata]
    exact Mem.take_read (by omega)
  rw [splice, htake, hlen]

theorem Shows.load (h : Shows g k) {off n : Nat} (hp : Part g stats off n) :
    ∃ e, k.deref stats = some e ∧ Mapped (stats + off) n ∧ g.shm.read (stats + off) n = (e.value.data.drop off).take n := by
  obtain ⟨e, hd, hle, hdata⟩ := h.part hp
  refine ⟨e, hd, h.mapped hd hle, ?_⟩
  have hsub : n ≤ e.value.data.length - off := by omega
  rw [hdata, Mem.drop_read, Mem.take_read hsub]

/-- What a function does with a segment it does with its board. -/
theorem Shows.use (h : Shows g k) (hf : Fitted sizeOf g) {c : Statics} (hk : OneSize sizeOf c.types)
    (happ : ∀ app, c.app = some app → 0 ∉ app) {u : Use} (hu : Handles sizeOf c g u) :
    ∃ answer types g' k', Segment.use resets c g u = some (answer, types, g') ∧
      Board.use resets (freeHandle g) c k u = some (answer, types, k') ∧
      Shows g' k' ∧ Fitted sizeOf g' ∧ OneSize sizeOf types := by
  cases u with
  | get module_name type create =>
    obtain ⟨r, types, g', k', hseg, hboard, hshows, hfit, htypes⟩ := h.get hf hk happ hu
    refine ⟨.block r, types, g', k', ?_, ?_, hshows, hfit, htypes⟩
    · rw [Segment.use]
      dsimp only
      rw [hseg]
      rfl
    · rw [Board.use, hboard]
  | get_names =>
    refine ⟨_, _, _, _, rfl, ?_, h, hf, hk⟩
    rw [h.get_names c.app]
    rfl
  | get_by_name name =>
    refine ⟨_, _, _, _, rfl, ?_, h, hf, hk⟩
    rw [h.get_by_name c.app c.types name]
    rfl
  | get_lib_name stats =>
    refine ⟨_, _, _, _, rfl, ?_, h, hf, hk⟩
    rw [h.get_lib_name stats]
    rfl
  | reset stats now =>
    obtain ⟨shm, hr, hshows⟩ := h.reset resets hf hk stats now
    refine ⟨_, _, _, _, ?_, rfl, hshows, hf, hk⟩
    rw [Segment.use, hr]
    rfl
  | clear stats now =>
    obtain ⟨shm, hr, hshows⟩ := h.clear resets hf hk stats now
    refine ⟨_, _, _, _, ?_, rfl, hshows, hf, hk⟩
    rw [Segment.use, hr]
    rfl
  | load stats off n =>
    obtain ⟨e, hd, hin, hread⟩ := h.load hu
    refine ⟨_, _, _, _, if_pos hin, ?_, h, hf, hk⟩
    rw [Board.use, hd, hread]
    rfl
  | store stats off bytes =>
    obtain ⟨e, hd, hle, -⟩ := h.part hu
    refine ⟨_, _, _, _, ?_, rfl, h.store hu, hf, hk⟩
    rw [Segment.use, Stats.store, if_pos (h.mapped hd hle)]
    rfl

end

end Nrappkit.Stats
