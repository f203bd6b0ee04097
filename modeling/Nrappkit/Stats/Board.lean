import Nrappkit.Stats.Processes
/-!
# Boards

What a segment is for: a catalog of blocks. Every process finds a block by its
name, and reads and writes it through a handle that is the same for all of them.
A new block is zeros. `Shows` says that a segment holds the blocks of a board,
at the addresses that are their handles.
-/
open Lib

namespace Nrappkit.Stats

structure Block where
  libname : Bytes
  data : Bytes

abbrev Board := Catalog Bytes Int Block

/-! ## What the functions do with a board -/

/-- What a record with `size` bytes of data takes of a segment. -/
def extent (size : Nat) : Nat := wrapperSize * (2 + size / wrapperSize)

/-- No record can start. -/
def Board.Full (k : Board) : Prop :=
  k.entries.length ≥ NR_MAX_STATS_SHMS ∨
    FIRSTWRAPPER + ((k.entries.map fun e => extent e.value.data.length).sum : Nat) > MAX_NR_STATS_SIZE

instance (k : Board) : Decidable k.Full := inferInstanceAs (Decidable (_ ∨ _))

def Block.onData (f : Bytes → Bytes) (b : Block) : Block := { b with data := f b.data }

/-- The block that is found, or a new one under an unused handle. -/
def Board.get (fresh : Int) (c : Statics) (k : Board) (module_name : Option Bytes) (type : NR_stats_type)
    (create : Bool) : Except Status Int × List NR_stats_type × Board :=
  match c.app with
  | none => (.error .R_FAILED, c.types, k)
  | some app =>
    match register_type c.types type with
    | .error r => (.error r, c.types, k)
    | .ok types =>
      match compute_name app module_name type.name with
      | .error r => (.error r, types, k)
      | .ok name =>
        match k.find name with
        | some e => (.ok e.handle, types, k)
        | none =>
          if create then
            match type.get_lib_name.getD (.ok (some [])) with
            | .error r => (.error r, types, k)
            | .ok libname =>
              if k.Full then (.error .R_NO_MEMORY, types, k)
              else
                let block : Block := { libname := libname.getD [], data := List.replicate type.size.toNat 0 }
                (.ok fresh, types, k.add { name, handle := fresh, value := block })
          else (.error .R_NOT_FOUND, types, k)

/-- A type is reset if it is known to the process. -/
def Board.reset (resets : Resets) (types : List NR_stats_type) (k : Board) (stats : Int) (now : UInt64) : Status × Board :=
  match k.deref stats with
  | none => (.R_BAD_ARGS, k)
  | some e =>
    match get_type_from_name types e.name with
    | .error r => (r, k)
    | .ok type => (.ok, k.change stats (Block.onData (resets.reset type now)))

def Board.clear (resets : Resets) (types : List NR_stats_type) (k : Board) (stats : Int) (now : UInt64) : Status × Board :=
  match k.deref stats with
  | none => (.R_BAD_ARGS, k)
  | some _ =>
    let zeroed : Board := k.change stats (Block.onData fun data => List.replicate data.length 0)
    (.ok, (zeroed.reset resets types stats now).2)

def Board.use (resets : Resets) (fresh : Int) (c : Statics) (k : Board) : Use → Option (Answer × List NR_stats_type × Board)
  | .get module_name type create =>
    let (r, types, k) := k.get fresh c module_name type create
    some (.block r, types, k)
  | .get_names =>
    let r := if c.app = none then .error .R_FAILED else .ok (k.entries.map fun e => some e.name)
    some (.names r, c.types, k)
  | .get_by_name name =>
    let r := if c.app = none then .error .R_FAILED
      else match k.find name with
        | none => .error .R_NOT_FOUND
        | some e => .ok ((get_type_from_name c.types name).toOption, e.handle)
    some (.entry r, c.types, k)
  | .get_lib_name stats =>
    let r := match k.deref stats with
      | none => .error .R_BAD_ARGS
      | some e => .ok (some e.value.libname)
    some (.libname r, c.types, k)
  | .reset stats now =>
    let (r, k) := k.reset resets c.types stats now
    some (.status r, c.types, k)
  | .clear stats now =>
    let (r, k) := k.clear resets c.types stats now
    some (.status r, c.types, k)
  | .load stats off n => (k.deref stats).map fun e => (.data ((e.value.data.drop off).take n), c.types, k)
  | .store stats off bytes => some (.status .ok, c.types, k.change stats (Block.onData (splice off bytes)))

/-! ## A segment that holds a board -/

/-- Record `i` of the segment is the entry. -/
structure Holds (g : Segment) (i : Nat) (e : Entry Bytes Int Block) : Prop where
  lt : i < g.recs.length
  name : e.name = g.recs[i].1
  handle : e.handle = start g.recs i + bufferOffset
  libname : cstr g.shm (start g.recs i + libnameOffset) PATH_MAX = some e.value.libname
  data : e.value.data = g.shm.read (start g.recs i + bufferOffset) g.recs[i].2.toNat

structure Shows (g : Segment) (k : Board) : Prop where
  layout : Layout g.shm g.recs
  inside : ∀ i (hi : i < g.recs.length), Inside (start g.recs i) g.recs[i].2
  /-- Nothing was written behind the records. -/
  clean : ∀ x, start g.recs g.recs.length ≤ x → g.shm x = 0
  length : k.entries.length = g.recs.length
  holds : ∀ i e, k.entries[i]? = some e → Holds g i e

section
variable {g : Segment} {k : Board} {i : Nat} {e : Entry Bytes Int Block} {name : Bytes} {stats : Int}

theorem Holds.size (h : Holds g i e) (hi : i < g.recs.length) : e.value.data.length = g.recs[i].2.toNat := by
  rw [h.data, Mem.read, List.length_map, List.length_range]

theorem Shows.at (h : Shows g k) (hi : i < g.recs.length) : ∃ e, k.entries[i]? = some e ∧ Holds g i e := by
  have hlen : i < k.entries.length := by rw [h.length]; exact hi
  exact ⟨_, List.getElem?_eq_getElem hlen, h.holds i _ (List.getElem?_eq_getElem hlen)⟩

theorem Shows.mem (h : Shows g k) (he : e ∈ k.entries) : ∃ i, k.entries[i]? = some e ∧ Holds g i e := by
  obtain ⟨i, hi⟩ := List.mem_iff_getElem?.1 he
  exact ⟨i, hi, h.holds i e hi⟩

theorem Shows.names (h : Shows g k) : k.entries.map Entry.name = g.recs.map Prod.fst := by
  apply List.ext_getElem
  · rw [List.length_map, List.length_map, h.length]
  · intro i h₁ h₂
    rw [List.length_map] at h₁
    rw [List.getElem_map, List.getElem_map]
    exact (h.holds i _ (List.getElem?_eq_getElem h₁)).name

/-- What is found on the board is found in the segment. -/
theorem Shows.find (h : Shows g k) :
    find_stats g.shm name = (k.find name).map fun e => e.handle - (bufferOffset : Int) := by
  cases hf : k.find name with
  | none =>
    rw [Option.map_none, h.layout.find_none, ← h.names]
    exact Catalog.find_none.1 hf
  | some e =>
    obtain ⟨he, rfl⟩ := Catalog.find_iff.1 hf
    obtain ⟨i, -, hh⟩ := h.mem he
    rw [Option.map_some, h.layout.find]
    exact ⟨i, hh.lt, hh.name.symm, by rw [hh.handle]; omega⟩

theorem Shows.deref (h : Shows g k) : k.deref stats = some e ↔ e.handle = stats ∧ ∃ i, k.entries[i]? = some e ∧ Holds g i e := by
  rw [Catalog.deref_iff]
  constructor
  · rintro ⟨he, hs⟩
    exact ⟨hs, h.mem he⟩
  · rintro ⟨hs, i, hi, -⟩
    exact ⟨List.mem_of_getElem? hi, hs⟩

/-- The check accepts the handles. -/
theorem Shows.sanity (h : Shows g k) : sanity_check g.shm stats = .ok ↔ ∃ e, k.deref stats = some e := by
  rw [h.layout.sanity]
  constructor
  · rintro ⟨i, hi, rfl⟩
    obtain ⟨e, he, hh⟩ := h.at hi
    exact ⟨e, h.deref.2 ⟨hh.handle, i, he, hh⟩⟩
  · rintro ⟨e, he⟩
    obtain ⟨rfl, i, -, hh⟩ := h.deref.1 he
    exact ⟨i, hh.lt, hh.handle⟩

/-- A part of a block is in the segment. -/
theorem Shows.mapped (h : Shows g k) (hd : k.deref stats = some e) {off n : Nat} (hle : off + n ≤ e.value.data.length) :
    Mapped (stats + off) n := by
  obtain ⟨rfl, i, -, hh⟩ := h.deref.1 hd
  obtain ⟨hge, hend⟩ := h.inside i hh.lt
  rw [hh.size hh.lt] at hle
  rw [hh.handle]
  exact ⟨by omega, by omega⟩

theorem sanity_check_cases (shm : Mem) (stats : Int) : sanity_check shm stats = .ok ∨ sanity_check shm stats = .R_BAD_ARGS := by
  unfold sanity_check
  dsimp only
  split
  · exact .inr rfl
  · split
    · exact .inl rfl
    · exact .inr rfl

theorem Shows.bad_args (h : Shows g k) (hd : k.deref stats = none) : sanity_check g.shm stats = .R_BAD_ARGS := by
  rcases sanity_check_cases g.shm stats with hok | hbad
  · obtain ⟨e, he⟩ := h.sanity.1 hok
    rw [hd] at he
    cases he
  · exact hbad

theorem Shows.start_length (h : Shows g k) :
    start g.recs g.recs.length = FIRSTWRAPPER + ((k.entries.map fun e => extent e.value.data.length).sum : Nat) := by
  have hmap : (k.entries.map fun e => extent e.value.data.length) = g.recs.map span := by
    apply List.ext_getElem
    · rw [List.length_map, List.length_map, h.length]
    · intro i h₁ h₂
      rw [List.length_map] at h₁
      have hh := h.holds i _ (List.getElem?_eq_getElem h₁)
      rw [List.getElem_map, List.getElem_map, hh.size hh.lt]
      rfl
  rw [start, List.take_length, hmap]

/-- A record is refused when the board is full. -/
theorem Shows.full (h : Shows g k) :
    k.Full ↔ (nshms g.shm).toNat ≥ NR_MAX_STATS_SHMS ∨ find_free_wrapper g.shm > MAX_NR_STATS_SIZE := by
  rw [Board.Full, h.layout.count, h.layout.free, h.length, h.start_length]

end

end Nrappkit.Stats
