import Nrappkit.Stats.Sharing
/-!
# What processes see of the statistics

Processes that attach to the segment under the key, and to a new one once it was
removed, share the boards of their segments: `boards_shared`. What one of them
wrote to a block is what any of them reads, until the block is written again:
`load_reads_last_store`.
-/
open Lib

namespace Nrappkit.Stats

/-- No segment has been created, and no process has called. -/
def boot {S : Type} (g : S) : World S where
  key := none
  made := 0
  segs _ := g
  procs _ := { app := none, shmid := none, mutex := false, types := [] }

/-- What the system hands out. -/
def blank : Segment := { shm := fun _ => 0, recs := [] }

abbrev call (resets : Resets) : World Segment → Nat × Call → Option (Answer × World Segment) :=
  serve Segment.zero (Segment.use resets)

/-- A call on the boards. A block that is created gets a handle that no block of
its board has. -/
def Board.Does (resets : Resets) (a : World Board) (op : Nat × Call) (answer : Answer) (a' : World Board) : Prop :=
  ∃ fresh, (∀ id, (a.procs op.1).shmid = some id → fresh ∉ (a.segs id).entries.map Entry.handle) ∧
    serve (fun _ => Catalog.empty) (Board.use resets fresh) a op = some (answer, a')

/-- What the processes are held to. -/
def Careful (sizeOf : Bytes → UInt32) (w : World Segment) (op : Nat × Call) : Prop :=
  match op.2 with
  | .startup app_name _ => ∀ app, app_name = some app → 0 ∉ app
  | .register type => Sized sizeOf type
  | .use u =>
    match (w.procs op.1).shmid with
    | none => (refusal u).isSome
    | some id => Handles sizeOf (w.procs op.1) (w.segs id) u
  | .shutdown _ | .rmids _ _ => True

/-! ## One call -/

/-- What holds of the variables of a process. -/
structure Proper (sizeOf : Bytes → UInt32) (made : Nat) (c : Statics) : Prop where
  types : OneSize sizeOf c.types
  string : ∀ app, c.app = some app → 0 ∉ app
  attached : c.app ≠ none → c.shmid ≠ none
  made : ∀ id, c.shmid = some id → id < made

/-- The segments show the boards. -/
structure Mirrors (sizeOf : Bytes → UInt32) (w : World Segment) (a : World Board) : Prop where
  key : a.key = w.key
  made : a.made = w.made
  procs : a.procs = w.procs
  shows : ∀ id, Shows (w.segs id) (a.segs id)
  fitted : ∀ id, Fitted sizeOf (w.segs id)
  unmade : ∀ id, w.made ≤ id → (w.segs id).recs = []
  under : ∀ id, w.key = some id → id < w.made
  proper : ∀ p, Proper sizeOf w.made (w.procs p)

section
variable {sizeOf : Bytes → UInt32} {w : World Segment} {a : World Board} {p id : Nat} {c : Statics} {g : Segment} {k : Board}

theorem blank_shows : Shows blank Catalog.empty := by
  refine ⟨⟨?_, Nat.zero_le _, by simp [blank], fun i hi => absurd hi (Nat.not_lt_zero i),
    fun i hi => absurd hi (Nat.not_lt_zero i), List.nodup_nil⟩, fun i hi => absurd hi (Nat.not_lt_zero i), fun _ _ => rfl,
    rfl, fun i e he => ?_⟩
  · rfl
  · cases he

/-- Setting the count of a segment without records changes nothing. -/
theorem Shows.zero (h : Shows g k) (hr : g.recs = []) : Shows g.zero Catalog.empty := by
  obtain ⟨shm, recs⟩ := g
  subst hr
  have hcount : nshms (shm.write32 0 0) = 0 := Mem.read32_write32 0
  refine ⟨⟨?_, Nat.zero_le _, fun _ hr => absurd hr List.not_mem_nil, fun i hi => absurd hi (Nat.not_lt_zero i),
    fun i hi => absurd hi (Nat.not_lt_zero i), List.nodup_nil⟩, fun i hi => absurd hi (Nat.not_lt_zero i), fun x hx => ?_,
    rfl, fun i e he => ?_⟩
  · exact congrArg UInt32.toNat hcount
  · have hfirst : FIRSTWRAPPER ≤ x := start_zero [] ▸ hx
    unfold FIRSTWRAPPER at hfirst
    exact (Mem.write32_outside (.inr (by omega))).trans (h.clean x hx)
  · cases he

theorem Proper.init (h : Proper sizeOf w.made c) : Proper sizeOf w.made (init_values c) :=
  ⟨h.types, fun _ happ => (by cases happ), fun happ => absurd rfl happ, fun _ hid => (by cases hid)⟩

theorem Mirrors.setProc (h : Mirrors sizeOf w a) (hc : Proper sizeOf w.made c) :
    Mirrors sizeOf (w.setProc p c) (a.setProc p c) := by
  refine ⟨h.key, h.made, ?_, h.shows, h.fitted, h.unmade, h.under, fun q => ?_⟩
  · rw [World.setProc, World.setProc, h.procs]
  · by_cases hq : q = p
    · subst hq
      rw [World.setProc_self]
      exact hc
    · rw [World.setProc_other hq]
      exact h.proper q

theorem Mirrors.setSeg (h : Mirrors sizeOf w a) (hs : Shows g k) (hf : Fitted sizeOf g) (hid : id < w.made) :
    Mirrors sizeOf (w.setSeg id g) (a.setSeg id k) := by
  refine ⟨h.key, h.made, h.procs, fun j => ?_, fun j => ?_, fun j hj => ?_, h.under, h.proper⟩
  · by_cases hj : j = id
    · subst hj
      rw [World.setSeg_self, World.setSeg_self]
      exact hs
    · rw [World.setSeg_other hj, World.setSeg_other hj]
      exact h.shows j
  · by_cases hj : j = id
    · subst hj
      rw [World.setSeg_self]
      exact hf
    · rw [World.setSeg_other hj]
      exact h.fitted j
  · have hne : j ≠ id := by
      rintro rfl
      exact absurd hid (Nat.not_lt.2 hj)
    rw [World.setSeg_other hne]
    exact h.unmade j hj

/-- The place for a new segment is taken. -/
theorem Mirrors.make (h : Mirrors sizeOf w a) :
    Mirrors sizeOf { w with key := some w.made, made := w.made + 1 } { a with key := some a.made, made := a.made + 1 } := by
  refine ⟨by rw [h.made], by rw [h.made], h.procs, h.shows, h.fitted, fun id hid => h.unmade id (Nat.le_of_succ_le hid),
    fun id hid => ?_, fun p => ?_⟩
  · cases hid
    exact Nat.lt_succ_self _
  · have hp := h.proper p
    exact ⟨hp.types, hp.string, hp.attached, fun id hid => Nat.lt_succ_of_lt (hp.made id hid)⟩

/-- A process attaches to the same segment. -/
theorem Mirrors.attach (h : Mirrors sizeOf w a) {shmid : Option Nat} (hmade : ∀ id, shmid = some id → id < w.made) (ipc : Ipc) :
    ∃ shmid' w' a', Stats.attach Segment.zero w shmid ipc = (shmid', w') ∧
      Stats.attach (fun _ => Catalog.empty) a shmid ipc = (shmid', a') ∧
      Mirrors sizeOf w' a' ∧ w'.procs = w.procs ∧ ∀ id, shmid' = some id → id < w'.made := by
  unfold Stats.attach
  cases shmid with
  | some id => exact ⟨some id, w, a, rfl, rfl, h, rfl, hmade⟩
  | none =>
  have hfail : ∀ {w' : World Segment} id, (none : Option Nat) = some id → id < w'.made := fun _ hid => by cases hid
  dsimp only
  rw [h.key]
  cases ipc.lookup with
  | false => exact ⟨none, w, a, rfl, rfl, h, rfl, hfail⟩
  | true =>
  cases hkey : w.key with
  | some id =>
    cases ipc.attach with
    | false => exact ⟨none, w, a, rfl, rfl, h, rfl, hfail⟩
    | true =>
      refine ⟨some id, w, a, rfl, rfl, h, rfl, fun id' hid => ?_⟩
      cases hid
      exact h.under id hkey
  | none =>
  cases ipc.create with
  | false => exact ⟨none, w, a, rfl, rfl, h, rfl, hfail⟩
  | true =>
  cases ipc.attach with
  | false => exact ⟨none, _, _, rfl, rfl, h.make, rfl, hfail⟩
  | true =>
    have hzero := (h.shows w.made).zero (h.unmade _ (Nat.le_refl _))
    refine ⟨some w.made, _, _, rfl, ?_, h.make.setSeg hzero (fun r hr => absurd hr List.not_mem_nil) (Nat.lt_succ_self _), rfl,
      fun id hid => ?_⟩
    · rw [h.made]
      rfl
    · cases hid
      exact Nat.lt_succ_self _

theorem OneSize.registered {types : List NR_stats_type} (h : OneSize sizeOf types) {type : NR_stats_type}
    (ht : type.size = sizeOf type.name) : OneSize sizeOf (registered types type) := by
  unfold Stats.registered
  cases hr : register_type types type with
  | error r => exact h
  | ok types' => exact h.register ht hr

/-- The two types of the library have their sizes. -/
structure Library (sizeOf : Bytes → UInt32) : Prop where
  app : NR_stats_type_app.size = sizeOf NR_stats_type_app.name
  memory : NR_stats_type_memory.size = sizeOf NR_stats_type_memory.name

theorem Mirrors.startup (h : Mirrors sizeOf w a) (hl : Library sizeOf) {app_name : Option Bytes}
    (happ : ∀ app, app_name = some app → 0 ∉ app) (ipc : Ipc) :
    ∃ r w' a', NR_stats_startup Segment.zero w p app_name ipc = (r, w') ∧
      NR_stats_startup (fun _ => Catalog.empty) a p app_name ipc = (r, a') ∧ Mirrors sizeOf w' a' := by
  obtain ⟨shmid, w', a', hw, ha, hm, hprocs, hmade⟩ := h.attach (h.proper p).made ipc
  have hp := hm.proper p
  rw [hprocs] at hp
  have hinit : Proper sizeOf w'.made (init_values { w.procs p with app := app_name }) :=
    ⟨hp.types, fun _ happ => (by cases happ), fun happ => absurd rfl happ, fun _ hid => (by cases hid)⟩
  unfold NR_stats_startup
  dsimp only
  rw [h.procs, hw, ha]
  dsimp only
  cases shmid with
  | none => exact ⟨_, _, _, rfl, rfl, hm.setProc hinit⟩
  | some id =>
    dsimp only
    split
    · refine ⟨_, _, _, rfl, rfl, hm.setProc ⟨?_, happ, fun _ hno => (by cases hno), fun id' hid' => ?_⟩⟩
      · exact (hp.types.registered hl.app).registered hl.memory
      · exact hmade id' hid'
    · exact ⟨_, _, _, rfl, rfl, hm.setProc hinit⟩

theorem Mirrors.shutdown (h : Mirrors sizeOf w a) (detaches : Bool) : ∃ r w' a',
    NR_stats_shutdown w p detaches = (r, w') ∧ NR_stats_shutdown a p detaches = (r, a') ∧ Mirrors sizeOf w' a' := by
  unfold NR_stats_shutdown
  rw [h.procs]
  dsimp only
  split
  · exact ⟨_, w, a, rfl, rfl, h⟩
  split
  · exact ⟨_, w, a, rfl, rfl, h⟩
  · exact ⟨_, _, _, rfl, rfl, h.setProc (h.proper p).init⟩

theorem Mirrors.rmids (h : Mirrors sizeOf w a) (lookup remove : Bool) : ∃ r w' a',
    NR_stats_rmids w p lookup remove = (r, w') ∧ NR_stats_rmids a p lookup remove = (r, a') ∧ Mirrors sizeOf w' a' := by
  unfold NR_stats_rmids
  rw [h.procs, h.key]
  split
  · exact ⟨_, w, a, rfl, rfl, h⟩
  split
  · exact ⟨_, w, a, rfl, rfl, h⟩
  cases hkey : w.key with
  | none => exact ⟨_, w, a, rfl, rfl, h⟩
  | some id =>
    cases remove with
    | false => exact ⟨_, w, a, rfl, rfl, h⟩
    | true =>
      have hremoved : Mirrors sizeOf { w with key := none } { a with key := none } :=
        ⟨rfl, h.made, h.procs, h.shows, h.fitted, h.unmade, fun _ hid => (by cases hid), h.proper⟩
      rw [h.procs] at hremoved
      exact ⟨_, _, _, rfl, rfl, hremoved⟩

theorem Mirrors.register (h : Mirrors sizeOf w a) {type : NR_stats_type} (ht : type.size = sizeOf type.name) : ∃ r w' a',
    NR_stats_register w p type = (r, w') ∧ NR_stats_register a p type = (r, a') ∧ Mirrors sizeOf w' a' := by
  have hp := h.proper p
  unfold NR_stats_register
  rw [h.procs]
  dsimp only
  split
  · exact ⟨_, w, a, rfl, rfl, h⟩
  cases hr : register_type (w.procs p).types type with
  | error r => exact ⟨_, w, a, rfl, rfl, h⟩
  | ok types => exact ⟨_, _, _, rfl, rfl, h.setProc ⟨hp.types.register ht hr, hp.string, hp.attached, hp.made⟩⟩

theorem Mirrors.free (h : Mirrors sizeOf w a) (id : Nat) : freeHandle (w.segs id) ∉ (a.segs id).entries.map Entry.handle := by
  intro hmem
  obtain ⟨e, he, heq⟩ := List.mem_map.1 hmem
  obtain ⟨i, -, hh⟩ := (h.shows id).mem he
  have hend := data_below_end hh.lt
  rw [hh.handle, freeHandle] at heq
  unfold bufferOffset at hend heq
  omega

variable (resets : Resets)

/-- A careful call returns, and is one on the boards. -/
theorem Mirrors.step (h : Mirrors sizeOf w a) (hl : Library sizeOf) {op : Nat × Call} (hc : Careful sizeOf w op) :
    ∃ answer w' a', call resets w op = some (answer, w') ∧ Board.Does resets a op answer a' ∧ Mirrors sizeOf w' a' := by
  obtain ⟨p, c⟩ := op
  have hfresh : ∀ id, (a.procs p).shmid = some id →
      freeHandle (w.segs (((w.procs p).shmid).getD 0)) ∉ (a.segs id).entries.map Entry.handle := by
    intro id hid
    rw [h.procs] at hid
    rw [hid]
    exact h.free id
  cases c with
  | startup app_name ipc =>
    obtain ⟨r, w', a', hw, ha, hm⟩ := h.startup (p := p) hl hc ipc
    refine ⟨.status r, w', a', ?_, ⟨_, hfresh, ?_⟩, hm⟩
    · simp only [serve, hw]
    · simp only [serve, ha]
  | shutdown detaches =>
    obtain ⟨r, w', a', hw, ha, hm⟩ := h.shutdown (p := p) detaches
    refine ⟨.status r, w', a', ?_, ⟨_, hfresh, ?_⟩, hm⟩
    · simp only [serve, hw]
    · simp only [serve, ha]
  | rmids lookup remove =>
    obtain ⟨r, w', a', hw, ha, hm⟩ := h.rmids (p := p) lookup remove
    refine ⟨.status r, w', a', ?_, ⟨_, hfresh, ?_⟩, hm⟩
    · simp only [serve, hw]
    · simp only [serve, ha]
  | register type =>
    have hsized : Sized sizeOf type := hc
    obtain ⟨r, w', a', hw, ha, hm⟩ := h.register (p := p) hsized.size
    refine ⟨.status r, w', a', ?_, ⟨_, hfresh, ?_⟩, hm⟩
    · simp only [serve, hw]
    · simp only [serve, ha]
  | use u =>
    have hp := h.proper p
    cases hid : (w.procs p).shmid with
    | none =>
      have hnone : (w.procs p).app = none := by
        by_contra happ
        exact hp.attached happ hid
      simp only [Careful, hid] at hc
      obtain ⟨answer, hanswer⟩ := Option.isSome_iff_exists.1 hc
      refine ⟨answer, w, a, ?_, ⟨_, hfresh, ?_⟩, h⟩
      · simp [serve, hid, hnone, hanswer]
      · simp [serve, h.procs, hid, hnone, hanswer]
    | some id =>
      simp only [Careful, hid] at hc
      obtain ⟨answer, types, g', k', hw, ha, hshows, hfit, htypes⟩ :=
        (h.shows id).use resets (h.fitted id) hp.types hp.string hc
      have hproper : Proper sizeOf w.made { w.procs p with types } := ⟨htypes, hp.string, hp.attached, hp.made⟩
      have hmirrors := (h.setSeg hshows hfit (hp.made id hid)).setProc (p := p) hproper
      refine ⟨answer, _, _, ?_, ⟨_, hfresh, ?_⟩, hmirrors⟩
      · simp only [serve, hid, hw]
        rfl
      · simp only [serve, h.procs, hid, Option.getD_some, ha]
        rfl

/-! ## Runs -/

theorem boot_mirrors : Mirrors sizeOf (boot blank) (boot Catalog.empty) := by
  refine ⟨rfl, rfl, rfl, fun _ => blank_shows, fun _ r hr => absurd hr List.not_mem_nil, fun _ _ => rfl,
    fun _ hid => (by cases hid), fun _ => ⟨fun t ht => absurd ht List.not_mem_nil, fun _ happ => (by cases happ),
    fun happ => absurd rfl happ, fun _ hid => (by cases hid)⟩⟩

/-- In every run in which names are not cut and records find room in their
segment, what the processes see is what they do to the boards: a block is found
under its name by every process, holds what was last written, and is a handle
that no other block of the board has. Every such call returns. -/
theorem boards_shared (hl : Library sizeOf) {evs : List ((Nat × Call) × Answer)}
    (hrun : Run (call resets) (Careful sizeOf) (boot blank) evs w) :
    ∃ a, SpecRun (Board.Does resets) (boot Catalog.empty) evs a ∧ (∀ id, Shows (w.segs id) (a.segs id)) ∧
      ∀ op, Careful sizeOf w op → ∃ answer w', call resets w op = some (answer, w') := by
  have hstep : ∀ s a op answer s', Mirrors sizeOf s a → Careful sizeOf s op → call resets s op = some (answer, s') →
      ∃ a', Board.Does resets a op answer a' ∧ Mirrors sizeOf s' a' := by
    intro s a op answer s' h hc hst
    obtain ⟨answer', s'', a', hst', hdoes, hm⟩ := h.step resets hl hc
    rw [hst] at hst'
    cases hst'
    exact ⟨a', hdoes, hm⟩
  obtain ⟨a, hspec, h⟩ := hrun.refines (Mirrors sizeOf) boot_mirrors hstep
  refine ⟨a, hspec, h.shows, fun op hc => ?_⟩
  obtain ⟨answer, w', -, hst, -⟩ := h.step resets hl hc
  exact ⟨answer, w', hst⟩

end

/-! ## What is careful can be checked -/

section
variable (sizeOf : Bytes → UInt32) (c : Statics) (g : Segment)

instance (recs : List (Bytes × UInt32)) (size : UInt32) : Decidable (Room recs size) := inferInstanceAs (Decidable (_ ∨ _ ∨ _))

instance (type : NR_stats_type) : Decidable (Sized sizeOf type) :=
  decidable_of_iff (type.size = sizeOf type.name ∧ 0 ∉ type.name ∧ 46 ∉ type.name ∧
      ∀ r ∈ type.get_lib_name, ∀ libname ∈ r.toOption, ∀ l ∈ libname, 0 ∉ l ∧ l.length < PATH_MAX) <| by
    constructor
    · rintro ⟨h₁, h₂, h₃, h₄⟩
      exact ⟨h₁, h₂, h₃, fun l hl => h₄ _ hl _ rfl _ rfl⟩
    · rintro ⟨h₁, h₂, h₃, h₄⟩
      refine ⟨h₁, h₂, h₃, fun r hr libname hlib l hl => h₄ l ?_⟩
      cases r with
      | error r => cases hlib
      | ok libname' =>
        cases hlib
        cases hl
        exact hr

instance (module_name : Option Bytes) (type : NR_stats_type) (create : Bool) :
    Decidable (Asks sizeOf c g module_name type create) :=
  decidable_of_iff (Sized sizeOf type ∧ (∀ l ∈ module_name, 0 ∉ l) ∧
      (∀ app ∈ c.app, (fullName app module_name type.name).length ≠ MAX_WHOLE_NAME + 1) ∧
      (create = true → ∀ n ∈ storedName c.app module_name type, (∀ r ∈ g.recs, r.1 ≠ n) → Room g.recs type.size)) <| by
    have hnew : ∀ n, n ∉ g.recs.map Prod.fst ↔ ∀ r ∈ g.recs, r.1 ≠ n := fun n => by
      rw [List.mem_map]
      exact ⟨fun hno r hr heq => hno ⟨r, hr, heq⟩, fun hall ⟨r, hr, heq⟩ => hall r hr heq⟩
    constructor
    · rintro ⟨h₁, h₂, h₃, h₄⟩
      exact ⟨h₁, h₂, h₃, fun hcreate n hn hno => h₄ hcreate n hn ((hnew n).1 hno)⟩
    · rintro ⟨h₁, h₂, h₃, h₄⟩
      exact ⟨h₁, h₂, h₃, fun hcreate n hn hno => h₄ hcreate n hn ((hnew n).2 hno)⟩

instance (stats : Int) (off n : Nat) : Decidable (Part g stats off n) :=
  decidable_of_iff (∃ i : Fin g.recs.length, stats = start g.recs i + bufferOffset ∧ off + n ≤ g.recs[i].2.toNat)
    ⟨fun ⟨i, h⟩ => ⟨i, i.isLt, h⟩, fun ⟨i, hi, h⟩ => ⟨⟨i, hi⟩, h⟩⟩

instance (u : Use) : Decidable (Handles sizeOf c g u) :=
  match u with
  | .get .. => inferInstanceAs (Decidable (Asks ..))
  | .get_lib_name _ | .reset .. | .clear .. => inferInstanceAs (Decidable (_ ∧ _))
  | .load .. | .store .. => inferInstanceAs (Decidable (Part ..))
  | .get_names | .get_by_name _ => isTrue trivial

instance (w : World Segment) (op : Nat × Call) : Decidable (Careful sizeOf w op) :=
  match op with
  | (_, .startup app_name _) => inferInstanceAs (Decidable (∀ app ∈ app_name, 0 ∉ app))
  | (_, .register _) => inferInstanceAs (Decidable (Sized ..))
  | (p, .use u) =>
    match hid : (w.procs p).shmid with
    | none => decidable_of_iff ((refusal u).isSome) (by simp [Careful, hid])
    | some id => decidable_of_iff (Handles sizeOf (w.procs p) (w.segs id) u) (by simp [Careful, hid])
  | (_, .shutdown _) | (_, .rmids ..) => isTrue trivial

end

/-! ## Two processes -/

/-- Every system call succeeds. -/
def Ipc.fine : Ipc := { lookup := true, create := true, attach := true, lock := true }

/-- The library's resets, where the clients' change nothing. -/
def plainResets : Resets := Resets.library (str "1") (by decide) { reset := fun _ _ stats => stats, length_eq := fun _ _ _ h => h }

def plainSizes (name : Bytes) : UInt32 := if name = str "app" then 88 else if name = str "memory" then 32 else 8

theorem plainSizes_library : Library plainSizes := ⟨by decide, by decide⟩

/-- A process creates a block, and another finds it. -/
def meeting : List (Nat × Call) := [(0, .startup (some (str "app")) .fine), (0, .use (.get none small true)),
  (1, .startup (some (str "tool")) .fine), (1, .use (.get_by_name (str "app.small")))]

theorem boards_shared_meeting : ∃ (evs : List ((Nat × Call) × Answer)) (w : World Segment) (a : World Board),
    Run (call plainResets) (Careful plainSizes) (boot blank) evs w ∧
      evs = meeting.zip [.status .ok, .block (.ok 4188), .status .ok, .entry (.ok (none, 4188))] ∧
      SpecRun (Board.Does plainResets) (boot Catalog.empty) evs a := by
  have hex : (exec (call plainResets) (fun w op => Careful plainSizes w op) (boot blank) meeting).any (fun x =>
      x.1 = [.status .ok, .block (.ok 4188), .status .ok, .entry (.ok (none, 4188))]) = true := by decide +kernel
  obtain ⟨⟨answers, w⟩, he, hanswers⟩ := (Option.any_eq_true _ _).1 hex
  obtain rfl := of_decide_eq_true hanswers
  have hrun := (Run.exec .nil he).mono fun _ _ hc => of_decide_eq_true hc
  obtain ⟨a, hspec, -⟩ := boards_shared plainResets plainSizes_library hrun
  exact ⟨_, w, a, hrun, rfl, hspec⟩

/-! ## What is read back -/

section
variable {sizeOf : Bytes → UInt32} {w : World Segment} {a : World Board} {id : Nat} {c : Statics} {g : Segment} {k : Board}
  {resets : Resets} {stats : Int} {off : Nat} {bytes : Bytes}

/-- The bytes of a block from `off` on. -/
def Reads (k : Board) (stats : Int) (off : Nat) (bytes : Bytes) : Prop :=
  ∃ e, k.deref stats = some e ∧ off + bytes.length ≤ e.value.data.length ∧
    (e.value.data.drop off).take bytes.length = bytes

/-- Bytes `off` to `off + n` of the block at `stats` are not written. -/
def Spares (stats : Int) (off n : Nat) : Use → Prop
  | .reset s _ | .clear s _ => s ≠ stats
  | .store s off' bytes => s = stats → off + n ≤ off' ∨ off' + bytes.length ≤ off
  | .get .. | .get_names | .get_by_name _ | .get_lib_name _ | .load .. => True

/-- No process that is attached to the segment writes to the part. -/
def Leaves (id : Nat) (stats : Int) (off n : Nat) (w : World Segment) (op : Nat × Call) : Prop :=
  (w.procs op.1).shmid = some id → ∀ u, op.2 = .use u → Spares stats off n u

theorem Reads.change_other (h : Reads k stats off bytes) {s : Int} (hne : s ≠ stats) (f : Block → Block) :
    Reads (k.change s f) stats off bytes := by
  obtain ⟨e, hd, hle, hread⟩ := h
  exact ⟨e, Catalog.deref_change_other hd hne, hle, hread⟩

theorem Reads.get (h : Reads k stats off bytes) (fresh : Int) (c : Statics) (module_name : Option Bytes) (type : NR_stats_type)
    (create : Bool) : Reads (k.get fresh c module_name type create).2.2 stats off bytes := by
  unfold Board.get
  split
  · exact h
  split
  · exact h
  split
  · exact h
  split
  · exact h
  split
  · split
    · exact h
    split
    · exact h
    · obtain ⟨e, hd, hle, hread⟩ := h
      exact ⟨e, Catalog.deref_add hd, hle, hread⟩
  · exact h

theorem Reads.reset (h : Reads k stats off bytes) (types : List NR_stats_type) {s : Int} (hne : s ≠ stats) (now : UInt64) :
    Reads (k.reset resets types s now).2 stats off bytes := by
  unfold Board.reset
  split
  · exact h
  split
  · exact h
  · exact h.change_other hne _

theorem Reads.clear (h : Reads k stats off bytes) (types : List NR_stats_type) {s : Int} (hne : s ≠ stats) (now : UInt64) :
    Reads (k.clear resets types s now).2 stats off bytes := by
  unfold Board.clear
  split
  · exact h
  · exact (h.change_other hne _).reset types hne now

theorem Reads.use (h : Reads k stats off bytes) (hs : Shows g k) {u : Use} (hu : Handles sizeOf c g u)
    (hspare : Spares stats off bytes.length u) {fresh : Int} {answer : Answer} {types : List NR_stats_type} {k' : Board}
    (huse : Board.use resets fresh c k u = some (answer, types, k')) : Reads k' stats off bytes := by
  cases u with
  | get module_name type create =>
    cases huse
    exact h.get ..
  | get_names =>
    cases huse
    exact h
  | get_by_name name =>
    cases huse
    exact h
  | get_lib_name s =>
    cases huse
    exact h
  | reset s now =>
    cases huse
    exact h.reset c.types hspare now
  | clear s now =>
    cases huse
    exact h.clear c.types hspare now
  | load s off' n =>
    obtain ⟨e, -, heq⟩ := Option.map_eq_some_iff.1 huse
    cases heq
    exact h
  | store s off' bytes' =>
    cases huse
    by_cases hs' : s = stats
    · subst hs'
      -- the parts are apart
      obtain ⟨e, hd, hle, hread⟩ := h
      obtain ⟨e', hd', hle', -⟩ := hs.part hu
      rw [hd] at hd'
      cases hd'
      refine ⟨_, Catalog.deref_change_self hd, ?_, ?_⟩
      · exact (splice_length hle').symm ▸ hle
      · exact (splice_outside hle' (hspare rfl)).trans hread
    · exact h.change_other hs' _

/-- The segment of a block was created. -/
theorem Mirrors.made_of_reads (h : Mirrors sizeOf w a) (hr : Reads (a.segs id) stats off bytes) : id < w.made := by
  by_contra hge
  obtain ⟨e, hd, -⟩ := hr
  obtain ⟨-, i, -, hh⟩ := (h.shows id).deref.1 hd
  have hlt := hh.lt
  rw [h.unmade id (Nat.not_lt.1 hge)] at hlt
  exact Nat.not_lt_zero i hlt

theorem Reads.step (h : Mirrors sizeOf w a) (hr : Reads (a.segs id) stats off bytes) {op : Nat × Call}
    (hc : Careful sizeOf w op) (hleaves : Leaves id stats off bytes.length w op) {answer : Answer} {a' : World Board}
    (hdoes : Board.Does resets a op answer a') : Reads (a'.segs id) stats off bytes := by
  obtain ⟨fresh, -, hserve⟩ := hdoes
  have hmade := h.made_of_reads hr
  rw [← h.made] at hmade
  rcases serve_segs hserve hmade with hsame | ⟨u, types, hop, hid, huse⟩
  · rw [hsame]
    exact hr
  · rw [h.procs] at hid huse
    simp only [Careful, hop, hid] at hc
    exact hr.use (h.shows id) hc (hleaves hid u hop) huse

theorem run_mirrors (hl : Library sizeOf) {evs : List ((Nat × Call) × Answer)}
    (hrun : Run (call resets) (Careful sizeOf) (boot blank) evs w) : ∃ a, Mirrors sizeOf w a := by
  refine hrun.inv (fun s => ∃ a, Mirrors sizeOf s a) ⟨_, boot_mirrors⟩ fun s op answer s' hs hc hst => ?_
  obtain ⟨a, h⟩ := hs
  obtain ⟨answer', s'', a', hst', -, hm⟩ := h.step resets hl hc
  rw [hst] at hst'
  cases hst'
  exact ⟨a', hm⟩

/-- What one process wrote to a part of a block is what every process that is
attached to the segment reads there, whatever any of them called in between, as
long as no call wrote to that part. -/
theorem load_reads_last_store (hl : Library sizeOf) {evs₁ evs₂ : List ((Nat × Call) × Answer)} {w₁ w₂ w₃ : World Segment}
    (hrun₁ : Run (call resets) (Careful sizeOf) (boot blank) evs₁ w₁) {p q : Nat} (hp : (w₁.procs p).shmid = some id)
    (hc : Careful sizeOf w₁ (p, .use (.store stats off bytes))) {answer : Answer}
    (hst : call resets w₁ (p, .use (.store stats off bytes)) = some (answer, w₂))
    (hrun₂ : Run (call resets) (fun w op => Careful sizeOf w op ∧ Leaves id stats off bytes.length w op) w₂ evs₂ w₃)
    (hq : (w₃.procs q).shmid = some id) :
    Careful sizeOf w₃ (q, .use (.load stats off bytes.length)) ∧
      ∃ w₄, call resets w₃ (q, .use (.load stats off bytes.length)) = some (.data bytes, w₄) := by
  obtain ⟨a₁, h₁⟩ := run_mirrors hl hrun₁
  -- the store
  have hstored : ∃ a₂, Mirrors sizeOf w₂ a₂ ∧ Reads (a₂.segs id) stats off bytes := by
    obtain ⟨answer', w', a₂, hst', ⟨fresh, -, hserve⟩, h₂⟩ := h₁.step resets hl hc
    rw [hst] at hst'
    cases hst'
    simp only [Careful, hp] at hc
    obtain ⟨e, hd, hle, -⟩ := (h₁.shows id).part hc
    refine ⟨a₂, h₂, ?_⟩
    simp only [serve, h₁.procs, hp, Board.use, Option.map_some, Option.some.injEq, Prod.mk.injEq] at hserve
    obtain ⟨-, rfl⟩ := hserve
    rw [World.setProc_segs, World.setSeg_self]
    refine ⟨_, Catalog.deref_change_self hd, ?_, splice_inside hle⟩
    exact (splice_length hle).symm ▸ hle
  -- what follows
  obtain ⟨a₃, h₃, e, hd, hle, hread⟩ := hrun₂.inv
    (fun w => ∃ a, Mirrors sizeOf w a ∧ Reads (a.segs id) stats off bytes) hstored fun s op answer s' hs hcl hst => by
      obtain ⟨a, h, hr⟩ := hs
      obtain ⟨answer', s'', a', hst', hdoes, hm⟩ := h.step resets hl hcl.1
      rw [hst] at hst'
      cases hst'
      exact ⟨a', hm, hr.step h hcl.1 hcl.2 hdoes⟩
  obtain ⟨rfl, i, hi, hh⟩ := (h₃.shows id).deref.1 hd
  have hpart : Part (w₃.segs id) e.handle off bytes.length := ⟨i, hh.lt, hh.handle, (hh.size hh.lt) ▸ hle⟩
  obtain ⟨e', hd', hin, hload⟩ := (h₃.shows id).load hpart
  rw [hd] at hd'
  cases hd'
  refine ⟨?_, ?_⟩
  · simp only [Careful, hq]
    exact hpart
  · simp only [serve, hq, Segment.use, if_pos hin, hload, hread]
    exact ⟨_, rfl⟩

end

/-- A write to a part of a block. -/
theorem call_store (resets : Resets) {w : World Segment} {p q id : Nat} {stats : Int} {off : Nat} {bytes : Bytes}
    (hin : Mapped (stats + off) bytes.length) (hp : (w.procs p).shmid = some id) (hq : (w.procs q).shmid = some id) :
    ∃ w', call resets w (p, .use (.store stats off bytes)) = some (.status .ok, w') ∧ (w'.procs q).shmid = some id ∧
      (w'.segs id).recs = (w.segs id).recs := by
  refine ⟨_, by simp only [serve, hp, Segment.use, store, if_pos hin]; rfl, ?_, ?_⟩
  · by_cases hqp : q = p
    · subst hqp
      rw [World.setProc_self]
    · rw [World.setProc_other hqp, World.setSeg_procs]
      exact hq
  · rw [World.setProc_segs, World.setSeg_self]

/-- While the other process writes behind it. -/
theorem load_reads_last_store_meeting : ∃ w₂ w₃ w₄ : World Segment,
    call plainResets (final (call plainResets) (fun w op => Careful plainSizes w op) (boot blank) meeting)
      (0, .use (.store 4188 0 [1, 2])) = some (.status .ok, w₂) ∧
    call plainResets w₂ (1, .use (.store 4188 2 [3])) = some (.status .ok, w₃) ∧
    call plainResets w₃ (1, .use (.load 4188 0 2)) = some (.data [1, 2], w₄) := by
  have hmet : (exec (call plainResets) (fun w op => Careful plainSizes w op) (boot blank) meeting).isSome = true := by
    decide +kernel
  obtain ⟨evs, hrun₁⟩ := Run.final hmet
  have hrun₁ := hrun₁.mono fun _ _ hc => of_decide_eq_true hc
  generalize hw₁ : final (call plainResets) (fun w op => Careful plainSizes w op) (boot blank) meeting = w₁ at hrun₁ ⊢
  have hp : (w₁.procs 0).shmid = some 0 ∧ (w₁.procs 1).shmid = some 0 ∧ Careful plainSizes w₁ (0, .use (.store 4188 0 [1, 2])) ∧
      Part (w₁.segs 0) 4188 2 1 := by
    rw [← hw₁]
    decide +kernel
  obtain ⟨hp0, hp1, hc, hpart⟩ := hp
  have hmapped : Mapped (4188 + (0 : Nat)) ([1, 2] : Bytes).length := by decide
  have hmapped' : Mapped (4188 + (2 : Nat)) ([3] : Bytes).length := by decide
  obtain ⟨w₂, hst, hp1', hrecs⟩ := call_store plainResets hmapped hp0 hp1
  obtain ⟨w₃, hst₃, hq, -⟩ := call_store plainResets hmapped' hp1' hp1'
  have hpart' := hpart.of_recs hrecs
  have hcareful : Careful plainSizes w₂ (1, .use (.store 4188 2 [3])) := by
    simp only [Careful, hp1']
    exact hpart'
  have hleaves : Leaves 0 4188 0 2 w₂ (1, .use (.store 4188 2 [3])) := by
    rintro - u hu
    cases hu
    exact fun _ => .inl (Nat.le_refl 2)
  have hrun₂ : Run (call plainResets) (fun w op => Careful plainSizes w op ∧ Leaves 0 4188 0 2 w op) w₂
      [((1, .use (.store 4188 2 [3])), .status .ok)] w₃ := .snoc .nil ⟨hcareful, hleaves⟩ hst₃
  obtain ⟨-, w₄, hload⟩ := load_reads_last_store plainSizes_library hrun₁ hp0 hc hst hrun₂ hq
  exact ⟨w₂, w₃, w₄, hst, hst₃, hload⟩

end Nrappkit.Stats
