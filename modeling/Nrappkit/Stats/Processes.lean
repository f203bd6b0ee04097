import Mathlib.Logic.Function.Basic
import Nrappkit.Lib.Buffer
import Nrappkit.Lib.Catalog
import Nrappkit.Stats.Names
/-!
# The segment and its processes

The rest of `nrstats.c`, with the segments that were created under the key and
the processes that call the functions. A call ends before the next one begins.
Of what a process does with a block it was handed, a read and a write of a part
of it are modelled; of `errprintf`, nothing.
-/
open Lib

namespace Nrappkit.Stats

/-! ## Types of statistics -/

deriving instance DecidableEq for NR_stats_type

def NR_stats_type_app : NR_stats_type := { name := str "app", get_lib_name := none, size := 88 }

def NR_stats_type_memory : NR_stats_type := { name := str "memory", get_lib_name := none, size := 32 }

/-- The bytes of a `UINT8` or a `time_t`. -/
def le64 (v : UInt64) : Bytes := (List.range 8).map fun i => UInt8.ofNat (v.toNat / 256 ^ i)

/-- `last_counter_reset` is at 0, and `version` at 24. -/
def stats_app_reset (nr_revision_number : Bytes) (now : UInt64) (stats : Bytes) : Bytes :=
  splice 24 (nr_revision_number ++ [0]) (splice 0 (le64 now) stats)

/-- `current_size` is at 0, and `in_use` at 16. -/
def stats_memory_reset (stats : Bytes) : Bytes := splice 16 (le64 0) (splice 0 (le64 0) stats)

/-- What the `reset` of each type makes of a block, at a time. It writes to the
block and nowhere else. -/
structure Resets where
  reset : NR_stats_type → UInt64 → Bytes → Bytes
  length_eq : ∀ type now stats, stats.length = type.size.toNat → (reset type now stats).length = type.size.toNat

/-- The two types of the library, and those of its clients. A revision fits into
`version`. -/
def Resets.library (nr_revision_number : Bytes) (h : nr_revision_number.length < 64) (clients : Resets) : Resets where
  reset type now stats :=
    if type = NR_stats_type_app then stats_app_reset nr_revision_number now stats
    else if type = NR_stats_type_memory then stats_memory_reset stats
    else clients.reset type now stats
  length_eq type now stats hlen := by
    have h64 : ∀ v, (le64 v).length = 8 := fun v => by simp [le64]
    split
    · rename_i htype
      have h88 : stats.length = 88 := by rw [hlen, htype]; rfl
      have hfirst : (splice 0 (le64 now) stats).length = stats.length := splice_length (by rw [h64]; omega)
      rw [stats_app_reset, splice_length, hfirst, hlen]
      rw [hfirst, List.length_append, List.length_singleton]
      omega
    split
    · rename_i htype
      have h32 : stats.length = 32 := by rw [hlen, htype]; rfl
      have hfirst : (splice 0 (le64 0) stats).length = stats.length := splice_length (by rw [h64]; omega)
      rw [stats_memory_reset, splice_length, hfirst, hlen]
      rw [hfirst, h64]
      omega
    · exact clients.length_eq type now stats hlen

/-! ## Blocks -/

def NR_stats_reset (resets : Resets) (shm : Mem) (types : List NR_stats_type) (stats : Int) (now : UInt64) :
    Option (Status × Mem) :=
  match sanity_check shm stats with
  | .ok =>
    match cstr shm (stats - bufferOffset) NR_MAX_STATS_NAME with
    | none => some (.R_BAD_ARGS, shm)
    | some name =>
      match get_type_from_name types name with
      | .error r => some (r, shm)
      | .ok type => (store shm stats (resets.reset type now (shm.read stats type.size.toNat))).map fun shm => (.ok, shm)
  | r => some (r, shm)

/-- Whether the type was found is not looked at. -/
def NR_stats_clear (resets : Resets) (shm : Mem) (types : List NR_stats_type) (stats : Int) (now : UInt64) :
    Option (Status × Mem) :=
  match sanity_check shm stats with
  | .ok => do
    let header := stats - bufferOffset
    let shm ← store shm stats (List.replicate (sizeT (shm.read32 (header + sizeOffset))) 0)
    let (_, shm) ← NR_stats_reset resets shm types stats now
    some (.ok, shm)
  | r => some (r, shm)

/-- The loop of `NR_stats_get_names`. -/
def names_loop (shm : Mem) : Nat → Int → List Int
  | 0, _ => []
  | n + 1, header => header :: names_loop shm n (NEXTWRAPPER shm header)

/-- The addresses of the names. -/
def NR_stats_get_names (app : Option Bytes) (shm : Mem) : Except Status (List Int) :=
  if app = none then .error .R_FAILED else .ok (names_loop shm (nshms shm).toNat FIRSTWRAPPER)

/-- The type is 0 where it is not known. -/
def NR_stats_get_by_name (app : Option Bytes) (types : List NR_stats_type) (shm : Mem) (name : Bytes) :
    Except Status (Option NR_stats_type × Int) :=
  if app = none then .error .R_FAILED
  else
    match find_stats shm name with
    | none => .error .R_NOT_FOUND
    | some header => .ok ((get_type_from_name types name).toOption, header + bufferOffset)

/-- The address of the name. -/
def NR_stats_get_lib_name (shm : Mem) (stats : Int) : Except Status Int :=
  match sanity_check shm stats with
  | .ok => .ok (stats - bufferOffset + libnameOffset)
  | r => .error r

/-! ## Processes -/

/-- The static variables of a process. The segment `shmid` is the one at `shm`. -/
structure Statics where
  app : Option Bytes
  shmid : Option Nat
  mutex : Bool
  types : List NR_stats_type

def init_values (c : Statics) : Statics := { c with app := none, shmid := none, mutex := false }

/-- The segments and the processes. -/
structure World (S : Type) where
  /-- The segment under `SHMKEY`. -/
  key : Option Nat
  /-- How many segments have been created. -/
  made : Nat
  segs : Nat → S
  procs : Nat → Statics

def World.setProc {S : Type} (w : World S) (p : Nat) (c : Statics) : World S :=
  { w with procs := Function.update w.procs p c }

def World.setSeg {S : Type} (w : World S) (id : Nat) (g : S) : World S :=
  { w with segs := Function.update w.segs id g }

section
variable {S : Type} {w : World S} {p q id j : Nat} {c : Statics} {g : S}

@[simp] theorem World.setProc_made : (w.setProc p c).made = w.made := rfl
@[simp] theorem World.setProc_segs : (w.setProc p c).segs = w.segs := rfl
@[simp] theorem World.setSeg_made : (w.setSeg id g).made = w.made := rfl
@[simp] theorem World.setSeg_procs : (w.setSeg id g).procs = w.procs := rfl
@[simp] theorem World.setProc_self : (w.setProc p c).procs p = c := Function.update_self ..
@[simp] theorem World.setSeg_self : (w.setSeg id g).segs id = g := Function.update_self ..
theorem World.setProc_other (h : q ≠ p) : (w.setProc p c).procs q = w.procs q := Function.update_of_ne h ..
theorem World.setSeg_other (h : j ≠ id) : (w.setSeg id g).segs j = w.segs j := Function.update_of_ne h ..

end

/-- Which system calls succeed: `shmget` of a segment that is there, `shmget` of
a new one, `shmat`, and the opening of the lock. -/
structure Ipc where
  lookup : Bool
  create : Bool
  attach : Bool
  lock : Bool

section
variable {S : Type}

/-- The first part of `NR_stats_startup`: the segment it is attached to, or a
failure. `zero` sets the count of a segment. -/
def attach (zero : S → S) (w : World S) (shmid : Option Nat) (ipc : Ipc) : Option Nat × World S :=
  match shmid with
  | some id => (some id, w)
  | none =>
    if !ipc.lookup then (none, w)
    else
      match w.key with
      | some id => if ipc.attach then (some id, w) else (none, w)
      | none =>
        if !ipc.create then (none, w)
        else
          let id := w.made
          let w := { w with key := some id, made := id + 1 }
          if ipc.attach then (some id, w.setSeg id (zero (w.segs id))) else (none, w)

/-- What `register_type` returns is not looked at. -/
def registered (types : List NR_stats_type) (type : NR_stats_type) : List NR_stats_type :=
  (register_type types type).toOption.getD types

def NR_stats_startup (zero : S → S) (w : World S) (p : Nat) (app_name : Option Bytes) (ipc : Ipc) : Status × World S :=
  let c := { w.procs p with app := app_name }
  let (shmid, w) := attach zero w c.shmid ipc
  match shmid with
  | none => (.R_FAILED, w.setProc p (init_values c))
  | some id =>
    if c.mutex || ipc.lock then
      let types := registered (registered c.types NR_stats_type_app) NR_stats_type_memory
      (.ok, w.setProc p { c with shmid := some id, mutex := true, types })
    else (.R_FAILED, w.setProc p (init_values c))

/-- `detaches` is whether `shmdt` succeeds. -/
def NR_stats_shutdown (w : World S) (p : Nat) (detaches : Bool) : Status × World S :=
  let c := w.procs p
  if c.app = none then (.R_ALREADY, w)
  else if c.shmid ≠ none && !detaches then (.R_FAILED, w)
  else (.ok, w.setProc p (init_values c))

/-- Whoever is attached to the segment stays attached. -/
def NR_stats_rmids (w : World S) (p : Nat) (lookup remove : Bool) : Status × World S :=
  if (w.procs p).shmid ≠ none then (.R_FAILED, w)
  else if !lookup then (.R_FAILED, w)
  else
    match w.key with
    | none => (.ok, w)
    | some _ => if remove then (.ok, { w with key := none }) else (.R_FAILED, w)

def NR_stats_register (w : World S) (p : Nat) (type : NR_stats_type) : Status × World S :=
  let c := w.procs p
  if c.app = none then (.R_FAILED, w)
  else
    match register_type c.types type with
    | .error r => (r, w)
    | .ok types => (.ok, w.setProc p { c with types })

end

/-! ## Calls -/

/-- What a process does with the segment. -/
inductive Use where
  | get (module_name : Option Bytes) (type : NR_stats_type) (create : Bool)
  | get_names
  | get_by_name (name : Bytes)
  | get_lib_name (stats : Int)
  | reset (stats : Int) (now : UInt64)
  | clear (stats : Int) (now : UInt64)
  /-- Read `n` bytes of a block, from `off` on. -/
  | load (stats : Int) (off n : Nat)
  /-- Write a part of a block, from `off` on. -/
  | store (stats : Int) (off : Nat) (bytes : Bytes)

inductive Call where
  | startup (app_name : Option Bytes) (ipc : Ipc)
  | shutdown (detaches : Bool)
  | rmids (lookup remove : Bool)
  | register (type : NR_stats_type)
  | use (u : Use)

/-- What a call returns, and for an address of a string the string that is
there, if one ends in its array. -/
inductive Answer where
  | status (r : Status)
  | block (r : Except Status Int)
  | names (r : Except Status (List (Option Bytes)))
  | entry (r : Except Status (Option NR_stats_type × Int))
  | libname (r : Except Status (Option Bytes))
  | data (bytes : Bytes)
  deriving DecidableEq

/-- The answer of a function that looks at `app` before anything else. -/
def refusal : Use → Option Answer
  | .get .. => some (.block (.error .R_FAILED))
  | .get_names => some (.names (.error .R_FAILED))
  | .get_by_name _ => some (.entry (.error .R_FAILED))
  | _ => none

/-- A call by a process, where `use` is what the functions do with a segment.
A process that is not attached reads at the address 0 otherwise. -/
def serve {S : Type} (zero : S → S) (use : Statics → S → Use → Option (Answer × List NR_stats_type × S)) (w : World S)
    (op : Nat × Call) : Option (Answer × World S) :=
  let p := op.1
  let c := w.procs p
  match op.2 with
  | .startup app_name ipc =>
    let (r, w) := NR_stats_startup zero w p app_name ipc
    some (.status r, w)
  | .shutdown detaches =>
    let (r, w) := NR_stats_shutdown w p detaches
    some (.status r, w)
  | .rmids lookup remove =>
    let (r, w) := NR_stats_rmids w p lookup remove
    some (.status r, w)
  | .register type =>
    let (r, w) := NR_stats_register w p type
    some (.status r, w)
  | .use u =>
    match c.shmid with
    | none => if c.app = none then (refusal u).map fun answer => (answer, w) else none
    | some id => (use c (w.segs id) u).map fun (answer, types, g) => (answer, (w.setSeg id g).setProc p { c with types })

section
variable {S : Type} {zero : S → S} {use : Statics → S → Use → Option (Answer × List NR_stats_type × S)} {w w' : World S} {id : Nat}

theorem attach_segs (shmid : Option Nat) (ipc : Ipc) (hid : id < w.made) : (attach zero w shmid ipc).2.segs id = w.segs id := by
  unfold attach
  cases shmid with
  | some _ => rfl
  | none =>
  dsimp only
  split
  · rfl
  split
  · split <;> rfl
  split
  · rfl
  split
  · exact World.setSeg_other (Nat.ne_of_lt hid)
  · rfl

theorem startup_segs (p : Nat) (app_name : Option Bytes) (ipc : Ipc) (hid : id < w.made) :
    (NR_stats_startup zero w p app_name ipc).2.segs id = w.segs id := by
  have hattach : (attach zero w (w.procs p).shmid ipc).2.segs id = w.segs id := attach_segs (w.procs p).shmid ipc hid
  unfold NR_stats_startup
  dsimp only
  split
  · exact hattach
  · split
    · exact hattach
    · exact hattach

theorem shutdown_segs (p : Nat) (detaches : Bool) : (NR_stats_shutdown w p detaches).2.segs = w.segs := by
  unfold NR_stats_shutdown
  dsimp only
  split
  · rfl
  · split <;> rfl

theorem rmids_segs (p : Nat) (lookup remove : Bool) : (NR_stats_rmids w p lookup remove).2.segs = w.segs := by
  unfold NR_stats_rmids
  split
  · rfl
  split
  · rfl
  split
  · rfl
  · split <;> rfl

theorem register_segs (p : Nat) (type : NR_stats_type) : (NR_stats_register w p type).2.segs = w.segs := by
  unfold NR_stats_register
  dsimp only
  split
  · rfl
  · split <;> rfl

/-- A call changes a segment only as a function that is called by a process
attached to it does. -/
theorem serve_segs {op : Nat × Call} {answer : Answer} (h : serve zero use w op = some (answer, w')) (hid : id < w.made) :
    w'.segs id = w.segs id ∨ ∃ u types, op.2 = .use u ∧ (w.procs op.1).shmid = some id ∧
      use (w.procs op.1) (w.segs id) u = some (answer, types, w'.segs id) := by
  obtain ⟨p, c⟩ := op
  cases c with
  | startup app_name ipc =>
    cases h
    exact .inl (startup_segs p app_name ipc hid)
  | shutdown detaches =>
    cases h
    exact .inl (congrFun (shutdown_segs p detaches) id)
  | rmids lookup remove =>
    cases h
    exact .inl (congrFun (rmids_segs p lookup remove) id)
  | register type =>
    cases h
    exact .inl (congrFun (register_segs p type) id)
  | use u =>
    unfold serve at h
    dsimp only at h
    split at h
    · split at h
      · obtain ⟨answer', -, heq⟩ := Option.map_eq_some_iff.1 h
        cases heq
        exact .inl rfl
      · cases h
    · rename_i j hj
      obtain ⟨⟨answer', types, g⟩, huse, heq⟩ := Option.map_eq_some_iff.1 h
      cases heq
      by_cases hne : id = j
      · subst hne
        refine .inr ⟨u, types, rfl, hj, ?_⟩
        rw [World.setProc_segs, World.setSeg_self]
        exact huse
      · exact .inl (World.setSeg_other hne)

end

structure Segment where
  shm : Mem
  /-- Not part of the program: the name and size of each record, in order. -/
  recs : List (Bytes × UInt32)

/-- `shminfo->nshms = 0` -/
def Segment.zero (g : Segment) : Segment := { shm := g.shm.write32 0 0, recs := [] }

def Segment.use (resets : Resets) (c : Statics) (g : Segment) : Use → Option (Answer × List NR_stats_type × Segment)
  | .get module_name type create =>
    let s : Process := { app := c.app, shm := g.shm, types := c.types, recs := g.recs }
    (NR_stats_get s module_name type create).map fun (r, s) => (.block r, s.types, { shm := s.shm, recs := s.recs })
  | .get_names =>
    let strings := (NR_stats_get_names c.app g.shm).map fun headers =>
      headers.map fun header => cstr g.shm header NR_MAX_STATS_NAME
    some (.names strings, c.types, g)
  | .get_by_name name => some (.entry (NR_stats_get_by_name c.app c.types g.shm name), c.types, g)
  | .get_lib_name stats =>
    let string := (NR_stats_get_lib_name g.shm stats).map fun libname => cstr g.shm libname PATH_MAX
    some (.libname string, c.types, g)
  | .reset stats now =>
    (NR_stats_reset resets g.shm c.types stats now).map fun (r, shm) => (.status r, c.types, { g with shm })
  | .clear stats now =>
    (NR_stats_clear resets g.shm c.types stats now).map fun (r, shm) => (.status r, c.types, { g with shm })
  | .load stats off n =>
    if Mapped (stats + off) n then some (.data (g.shm.read (stats + off) n), c.types, g) else none
  | .store stats off bytes =>
    (Stats.store g.shm (stats + off) bytes).map fun shm => (.status .ok, c.types, { g with shm })

end Nrappkit.Stats
