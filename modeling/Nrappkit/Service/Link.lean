import Nrappkit.Service.Wire
/-!
# A registry behind a lossy link

What a client can tell of the registry in the server. Requests and answers get
lost, and a call that had no answer is made again, so a request may be served
several times. `remote_refines` says that this shows only where a call returns
without an answer: it was done once or not at all.
-/
open Lib Nrappkit.Registry Nrappkit.Assoc Nrappkit.Control

namespace Nrappkit.Service

/-! ## The server between requests -/

/-- The variables of the server are in order, its registry holds what the store
does, and every string in it is terminated. -/
structure Serves (sv : Svc) (a : Store) : Prop where
  reg : Refines sv.reg a
  bytes : sv.bytes.Ok
  string : sv.string.Ok
  children : sv.children.Ok
  strings : ∀ n content, a.value n = some (.array true content) → ∃ b, 0 ∉ b ∧ content = b ++ [0]

/-- A string that a call can carry. -/
def Carried (b : Bytes) : Prop := Xdr.string.Carries b

instance (b : Bytes) : Decidable (Carried b) := inferInstanceAs (Decidable (_ ∧ _))

/-- What a result says. -/
def resultOf {α : Type} (r : Status × α) : Except Status α := if r.1 ≠ .ok then .error r.1 else .ok r.2

section
variable {qsort : List Bytewise.NR_registry → List Bytewise.NR_registry} {left : Leftover} {sv sv' : Svc} {a : Store}
  {name : Bytes}

theorem terminated (h : Serves sv a) (name : Bytes) : Terminated sv.reg name := by
  intro content hc
  have hv : nr_reg_is_valid name = .ok := valid_of_stored h.reg.sound.1 (by simp [hc])
  have hval : sv.reg.map name = (a.value ⟨name, hv⟩).map some := h.reg.value ⟨name, hv⟩
  rw [hc] at hval
  obtain ⟨v, hv, hvs⟩ := Option.map_eq_some_iff.1 hval.symm
  cases hvs
  exact h.strings _ content hv

/-- One attempt that arrives, and whose answer does. -/
theorem stub_run {A R : Type} {proc : Proc} {xargs : Xdr A} {xres : Xdr R} {run : Svc → A → Option (R × Svc)}
    (hp : procedure qsort left proc = ⟨xargs, xres, run⟩) {arg : A} (ha : xargs.Carries arg) {r : R}
    (hrun : run sv arg = some (r, sv')) (hr : xres.Carries r) :
    clnt_call (registrydprog_1 qsort left) proc.number xargs arg xres sv = some (some r, sv') := by
  have hproc : procs[proc.number]?.map (procedure qsort left) = some ⟨xargs, xres, run⟩ := by
    rw [procs_number, Option.map_some, hp]
  have hcarry : ∀ r' s', run sv arg = some (r', s') → xres.Carries r' := by
    intro r' s' h'
    rw [hrun] at h'
    cases h'
    exact hr
  rw [registrydprog_1, clnt_call_dispatch hproc ha hcarry, hrun]
  rfl

/-! ### Reads -/

/-- A procedure whose result satisfies `P`, and that leaves the store as it is. -/
def Answers {α : Type} (P : Except Status α → Prop) (xres : Xdr (Status × α)) (run : Svc → Bytes → Option ((Status × α) × Svc))
    (name : Bytes) (a : Store) : Prop :=
  ∀ sv, Serves sv a → ∃ r sv', run sv name = some (r, sv') ∧ P (resultOf r) ∧ xres.Carries r ∧ Serves sv' a

/-- No error is numbered 0. -/
theorem resultOf_error {α : Type} {r : Status} (hr : r ≠ .ok) (out : α) : resultOf (r, out) = .error r := if_pos hr

theorem resultOf_ok {α : Type} (v : α) : resultOf (Status.ok, v) = .ok v := if_neg (by simp)

theorem svc_get_answers {α : Type} {P : Except Status α → Prop} {x : Xdr α} {get : Reg → Bytes → Option (Except Status α)}
    {out : α} {a : Store} (hget : ∀ s, Refines s a → ∃ e, get s name = some e ∧ P e ∧ e ≠ .error .ok ∧ ∀ v, e = .ok v → x.Carries v)
    (hout : x.Carries out) : Answers P (xdr_result x) (svc_get get out) name a := by
  intro sv h
  obtain ⟨e, he, hP, hne, hcarry⟩ := hget sv.reg h.reg
  unfold svc_get
  rw [he]
  cases e with
  | ok v => exact ⟨(.ok, v), sv, rfl, by rwa [resultOf_ok], ⟨xdr_status_carries _, hcarry v rfl⟩, h⟩
  | error r =>
    have hr : r ≠ .ok := fun hr => hne (by rw [hr])
    exact ⟨(r, out), sv, rfl, by rwa [resultOf_error hr], ⟨xdr_status_carries _, hout⟩, h⟩

/-- What is found under a name, or why nothing is. -/
theorem lookup_error {r : Status} (h : a.lookup name = .error r) : r = .R_BAD_ARGS ∨ r = .R_NOT_FOUND := by
  unfold Store.lookup at h
  split at h
  · cases hv : a.value ⟨name, ‹_›⟩ with
    | none =>
      rw [hv] at h
      cases h
      exact .inr rfl
    | some v =>
      rw [hv] at h
      cases h
  · cases h
    exact .inl rfl

theorem get_error {type : NR_REG_TYPE} {size : Nat} : a.get name type size ≠ .error .ok := by
  unfold Store.get
  cases hl : a.lookup name with
  | error r =>
    intro h
    cases h
    rcases lookup_error hl with hr | hr <;> cases hr
  | ok v =>
    dsimp only [Except.bind]
    split
    · simp
    · split <;> simp

theorem ne_error_of_map {α β : Type} {f : α → β} {e : Except Status α} (h : e.map f ≠ .error .ok) : e ≠ .error .ok := by
  rintro rfl
  exact h rfl

theorem get_type_ok {type : NR_REG_TYPE} {size : Nat} {v : Value} (h : a.get name type size = .ok v) : v.type = type := by
  unfold Store.get at h
  cases hl : a.lookup name with
  | error r =>
    rw [hl] at h
    cases h
  | ok w =>
    rw [hl] at h
    dsimp only [Except.bind] at h
    split at h
    · cases h
    · split at h
      · cases h
      · cases h
        exact not_not.1 ‹_›

theorem scalar_answers {type : NR_REG_TYPE} {x : Xdr Scalar} (hx : Scalars type x) {get : Reg → Bytes → Option (Except Status Scalar)}
    (hget : ∀ s name size, getter s name size type = (get s name).map (·.map .scalar)) {out : Scalar} (hout : out.type = type) :
    Answers (fun e => ∀ size, e.map .scalar = a.get name type size) (xdr_result x) (svc_get get out) name a := by
  refine svc_get_answers (fun s h => ?_) (hx out hout)
  have hread : ∀ size, (get s name).map (·.map Value.scalar) = some (a.get name type size) := fun size => by
    rw [← hget, h.get]
  obtain ⟨e, he, -⟩ := Option.map_eq_some_iff.1 (hread 0)
  have hall : ∀ size, e.map Value.scalar = a.get name type size := fun size => by
    simpa [he] using hread size
  refine ⟨e, he, hall, ne_error_of_map (hall 0 ▸ get_error), ?_⟩
  rintro v rfl
  exact hx v (get_type_ok (hall 0).symm)

theorem registry_answers (hname : Carried name) : Answers
    (fun e => ∀ size, (e.bind fun out => if out.length ≥ NR_REG_MAX_NR_REGISTRY_LEN then .error .R_BAD_ARGS else .ok Value.registry) =
      a.get name .REGISTRY size) xdr_nr_regd_result_string (nr_reg_get_registry_1_svc left) name a := by
  refine svc_get_answers (fun s h => ?_) left.string_carried
  have hread : ∀ size, (nr_reg_local_get_registry s name).map (·.map fun _ => Value.registry) = some (a.get name .REGISTRY size) :=
    fun size => h.get name .REGISTRY size
  obtain ⟨e, he, -⟩ := Option.map_eq_some_iff.1 (hread 0)
  have hall : ∀ size, (e.map fun _ => Value.registry) = a.get name .REGISTRY size := fun size => by
    simpa [he] using hread size
  -- only a valid name is found
  have hok : ∀ out, e = .ok out → out = name ∧ name.length < NR_REG_MAX_NR_REGISTRY_LEN := by
    rintro out rfl
    unfold nr_reg_local_get_registry at he
    by_cases hv : nr_reg_is_valid name = .ok
    · obtain ⟨f, -, hfe⟩ := Option.map_eq_some_iff.1 he
      cases f with
      | error r => cases hfe
      | ok x =>
        cases hfe
        exact ⟨rfl, (is_valid_iff.1 hv).1⟩
    · rw [fetch_node_invalid hv, (is_valid_cases name).resolve_left hv] at he
      cases he
  refine ⟨e, he, fun size => ?_, ne_error_of_map (hall 0 ▸ get_error), ?_⟩
  · rw [← hall]
    cases e with
    | error r => rfl
    | ok out =>
      obtain ⟨rfl, hlen⟩ := hok out rfl
      dsimp only [Except.bind, Except.map]
      rw [if_neg (Nat.not_le.2 hlen)]
  · rintro out rfl
    rw [(hok out rfl).1]
    exact hname

theorem type_name_carried (type : NR_REG_TYPE) :
    Carried (nr_reg_type_name type) ∧ (nr_reg_type_name type).take NR_REG_MAX_TYPE_LEN = nr_reg_type_name type := by
  cases type <;> decide

theorem type_answers : Answers (fun e => (e.map fun out => out.take NR_REG_MAX_TYPE_LEN) =
    (a.lookup name).map fun v => nr_reg_type_name v.type) xdr_nr_regd_result_string (nr_reg_get_type_1_svc left) name a := by
  refine svc_get_answers (fun s h => ⟨_, h.get_type name, ?_, ?_, ?_⟩) left.string_carried
  · cases a.lookup name with
    | error r => rfl
    | ok v => exact congrArg Except.ok (type_name_carried v.type).2
  · cases hl : a.lookup name with
    | error r => rcases lookup_error hl with rfl | rfl <;> simp [Except.map]
    | ok v => simp [Except.map]
  · intro out hout
    cases hl : a.lookup name with
    | error r =>
      rw [hl] at hout
      cases hout
    | ok v =>
      rw [hl] at hout
      cases hout
      exact (type_name_carried v.type).1

/-- A length fits an `unsigned int`. -/
theorem lengthOf_lt {s : Reg} (h : Refines s a) {v : Value} (hl : a.lookup name = .ok v) : Store.lengthOf name v < 2 ^ 32 := by
  rcases h.lookup_cases name with ⟨-, -, he⟩ | ⟨-, -, -, he⟩ | ⟨hv, p, node, -, -, hok, -, he⟩
  · rw [hl] at he
    cases he
  · rw [hl] at he
    cases he
  · rw [hl] at he
    cases he
    have hname : name.length < 128 := (is_valid_iff.1 hv).1
    rw [← lengthOf_value name hok]
    cases node with
    | scalar v => cases v <;> simp [nr_reg_compute_length, Scalar.type]
    | registry => exact Nat.lt_trans hname (by decide)
    | array string length data =>
      cases string with
      | true => exact (length - 1).toNat_lt
      | false => exact length.toNat_lt

theorem length_answers : Answers (fun e => (e.bind fun out => (uint4 out).map UInt32.toNat) =
    (a.lookup name).map (Store.lengthOf name)) xdr_nr_regd_result_UINT4 (nr_reg_get_length_1_svc left) name a := by
  refine svc_get_answers (fun s h => ⟨_, congrArg _ (h.get_length name), ?_, ?_, ?_⟩) (u_int32_scalars (._nr_uint4 left.word) rfl)
  · cases hl : a.lookup name with
    | error r => rfl
    | ok v =>
      have hlt := lengthOf_lt h hl
      simp only [Except.map, Except.bind, uint4]
      rw [UInt32.toNat_ofNat', Nat.mod_eq_of_lt hlt]
  · cases hl : a.lookup name with
    | error r => rcases lookup_error hl with rfl | rfl <;> simp [Except.map]
    | ok v => simp [Except.map]
  · intro out hout
    cases hl : a.lookup name with
    | error r =>
      rw [hl] at hout
      cases hout
    | ok v =>
      rw [hl] at hout
      cases hout
      exact u_int32_scalars _ rfl

theorem child_count_answers : Answers (fun e => ∃ l, a.Lists (fun n => if name = [] then n ≠ [] else Child name n) l ∧
    e.bind uint4 = (a.lookup name).bind fun v => if v = .registry then .ok (UInt32.ofNat l.length) else .error .R_FAILED)
    xdr_nr_regd_result_UINT4 (nr_reg_get_child_count_1_svc left) name a := by
  refine svc_get_answers (fun s h => ?_) (u_int32_scalars (._nr_uint4 left.word) rfl)
  obtain ⟨l, hl, hcount⟩ := h.get_child_count name
  refine ⟨_, congrArg _ hcount, ⟨l, hl, ?_⟩, ?_, ?_⟩
  · cases a.lookup name with
    | error r => rfl
    | ok v =>
      by_cases hv : v = .registry
      · simp [Except.bind, Except.map, uint4, hv]
      · simp [Except.bind, Except.map, hv]
  · cases hlk : a.lookup name with
    | error r => rcases lookup_error hlk with rfl | rfl <;> simp [Except.map, Except.bind]
    | ok v =>
      by_cases hv : v = .registry
      · simp [Except.bind, Except.map, hv]
      · simp [Except.bind, Except.map, hv]
  · intro out hout
    refine u_int32_scalars out ?_
    obtain ⟨e, he⟩ : ∃ e : Except Status UInt32, e.map Scalar._nr_uint4 = .ok out := ⟨_, hout⟩
    cases e with
    | error r => cases he
    | ok n =>
      cases he
      rfl

/-! ### Arrays -/

/-- A local read into a buffer of every size, as the store has it. -/
theorem get_array (h : Refines sv.reg a) (name : Bytes) (string : Bool) (size : Nat) :
    (nr_reg_get_array sv.reg name string size).map (·.map (.array string)) = some (a.get name (arrayType string) size) := by
  cases string with
  | false => exact h.get name .BYTES size
  | true => exact h.get name .STRING size

/-- What the server reads into its own buffer. -/
theorem array_cases (h : Refines sv.reg a) {st : Static} (hst : st.Ok) (name : Bytes) (string : Bool) :
    (∃ r st', r ≠ .ok ∧ (∀ size, a.get name (arrayType string) size = .error r) ∧
      svc_get_array sv.reg name string st = some (.error r, st') ∧ st'.Ok) ∨
    (∃ content rest st', sv.reg.map name = some (some (.array string content)) ∧ content.length < 2 ^ 32 ∧
      (∀ size, a.get name (arrayType string) size =
        if size < content.length then .error .R_BAD_ARGS else .ok (.array string content)) ∧
      svc_get_array sv.reg name string st = some (.ok content.length, st') ∧ st'.Ok ∧
      st'.out = some (content.map some ++ rest)) := by
  rcases svc_get_array_spec h.sound.1 hst name string with ⟨hnone, -⟩ | ⟨r, st', herr, -, he, hok⟩ |
    ⟨content, rest, st', hmap, hlt, hget, he, hok, hout⟩
  · have hread := get_array h name string 0
    rw [hnone] at hread
    cases hread
  · have hall : ∀ size, a.get name (arrayType string) size = .error r := fun size => by
      have hread := get_array h name string size
      rw [herr] at hread
      exact (Option.some.inj hread).symm
    refine .inl ⟨r, st', ?_, hall, he, hok⟩
    rintro rfl
    exact get_error (hall 0)
  · refine .inr ⟨content, rest, st', hmap, hlt, fun size => ?_, he, hok, hout⟩
    have hread := get_array h name string size
    rw [hget] at hread
    rw [← Option.some.inj hread]
    split <;> rfl

theorem bytes_answers : Answers
    (fun e => ∀ size, (e.bind fun out => if out.length > size then .error .R_BAD_ARGS else .ok (Value.array false out)) =
      a.get name .BYTES size) xdr_nr_regd_result_bytes (nr_reg_get_bytes_1_svc left) name a := by
  intro sv h
  unfold nr_reg_get_bytes_1_svc Registry.nr_reg_get_bytes_1_svc
  rcases array_cases h.reg h.bytes name false with ⟨r, st', hr, hall, he, hok⟩ | ⟨content, rest, st', -, hlt, hall, he, hok, hout⟩
  · rw [he]
    refine ⟨(r, left.bytes), _, rfl, fun size => ?_, ⟨xdr_status_carries r, left.bytes_carried⟩,
      ⟨h.reg, hok, h.string, h.children, h.strings⟩⟩
    rw [resultOf_error hr, show NR_REG_TYPE.BYTES = arrayType false from rfl, hall]
    rfl
  · have hsent : (st'.out.getD []).take (content.length % 2 ^ 32) = content.map some := by
      rw [hout, Nat.mod_eq_of_lt hlt]
      exact List.take_left' (List.length_map _)
    rw [he, Option.map_some, Option.bind_some]
    dsimp only [Except.map]
    rw [hsent, mapM_some]
    refine ⟨(.ok, content), _, rfl, fun size => ?_, ⟨xdr_status_carries _, hlt⟩,
      ⟨h.reg, hok, h.string, h.children, h.strings⟩⟩
    rw [resultOf_ok, show NR_REG_TYPE.BYTES = arrayType false from rfl, hall]
    rfl

theorem string_answers : Answers
    (fun e => ∀ size, (e.bind fun out => if out.length ≥ size then .error .R_BAD_ARGS else .ok (Value.array true (out ++ [0]))) =
      a.get name .STRING size) xdr_nr_regd_result_string (nr_reg_get_string_1_svc left) name a := by
  intro sv h
  unfold nr_reg_get_string_1_svc Registry.nr_reg_get_string_1_svc
  rcases array_cases h.reg h.string name true with ⟨r, st', hr, hall, he, hok⟩ |
    ⟨content, rest, st', hmap, hlt, hall, he, hok, hout⟩
  · rw [he]
    refine ⟨(r, left.string), _, rfl, fun size => ?_, ⟨xdr_status_carries r, left.string_carried⟩,
      ⟨h.reg, h.bytes, hok, h.children, h.strings⟩⟩
    rw [resultOf_error hr, show NR_REG_TYPE.STRING = arrayType true from rfl, hall]
    rfl
  · obtain ⟨b, h0, rfl⟩ := terminated h name content hmap
    rw [List.length_append, List.length_singleton] at hlt
    rw [he, Option.map_some, Option.bind_some]
    dsimp only [Except.map]
    rw [hout, Option.getD_some, stringAt_terminated h0]
    refine ⟨(.ok, b), _, rfl, fun size => ?_, ⟨xdr_status_carries _, h0, hlt⟩,
      ⟨h.reg, h.bytes, hok, h.children, h.strings⟩⟩
    rw [resultOf_ok, show NR_REG_TYPE.STRING = arrayType true from rfl, hall]
    simp only [Except.bind, List.length_append, List.length_singleton, ge_iff_le, Nat.lt_succ_iff]

end

/-! ### Children -/

/-- The number of children that the server has room for, and names that are
terminated in the array whatever was in it. -/
def Roomy (s : Reg) (parent : Bytes) : Prop :=
  (child_names s parent).length < 2 ^ 30 ∧ ∀ n ∈ child_names s parent, n.length < NR_REG_MAX_NR_REGISTRY_LEN - 1

instance (s : Reg) (parent : Bytes) : Decidable (Roomy s parent) := inferInstanceAs (Decidable (_ ∧ _))

section
variable {qsort : List Bytewise.NR_registry → List Bytewise.NR_registry} {left : Leftover} {sv : Svc} {a : Store}
  {s : Reg} {parent : Bytes} {st st' : Bytewise.ChildrenStatic} {fresh : Nat → Nat → Bytewise.NR_registry}

/-- Short names are read back from the sorted array. -/
theorem sorted_names (h : RInv s) (hsort : Bytewise.Sorts qsort) (hshort : ∀ n ∈ child_names s parent, n.length < NR_REG_MAX_NR_REGISTRY_LEN - 1)
    {data : List Bytewise.NR_registry} (hlen : (child_names s parent).length ≤ data.length) :
    ∃ names : List Bytes, (qsort (Bytewise.filled data (child_names s parent))).map Bytewise.NR_registry.string = names.map some ∧
      names.Perm (child_names s parent) ∧ names.Pairwise caseLe := by
  have hstring : ∀ (i : Nat) (r : Bytewise.NR_registry) (name : Bytes), data[i]? = some r → (child_names s parent)[i]? = some name →
      (r.copy name).string = some name := by
    intro i r name _ hn
    have hmem := List.mem_of_getElem? hn
    rw [Bytewise.copy_string (valid_of_stored h ((mem_children h).1 hmem).2), if_neg fun hc => Nat.ne_of_lt (hshort name hmem) hc.1]
  have htext := Bytewise.filled_text hlen fun i r name hr hn => Bytewise.NR_registry.text_of_string (hstring i r name hr hn)
  refine ⟨(qsort (Bytewise.filled data (child_names s parent))).map Bytewise.NR_registry.text, ?_, ?_, ?_⟩
  · rw [List.map_map]
    refine List.map_congr_left fun x hx => ?_
    obtain ⟨i, r, name, hr, hn, rfl⟩ := Bytewise.mem_filled ((hsort.perm _).mem_iff.1 hx)
    rw [Function.comp_apply, hstring i r name hr hn, Bytewise.NR_registry.text_of_string (hstring i r name hr hn)]
  · have hperm := (hsort.perm (Bytewise.filled data (child_names s parent))).map Bytewise.NR_registry.text
    rwa [htext] at hperm
  · rw [List.pairwise_map]
    exact hsort.sorted _

/-- What the server sends for a valid name. -/
theorem svc_names (h : RInv s) (hsort : Bytewise.Sorts qsort) (hv : nr_reg_is_valid parent = .ok)
    (hshort : ∀ n ∈ child_names s parent, n.length < NR_REG_MAX_NR_REGISTRY_LEN - 1) {n : Nat} (hst : st.Pre) {r : Status}
    (hret : Bytewise.nr_reg_get_children_1_svc qsort fresh s parent n st = some (r, st')) :
    ∃ names : List Bytes, st'.out_val = names.map some ∧ names.Perm (child_names s parent) ∧ names.Pairwise caseLe := by
  induction n generalizing st r with
  | zero => cases hret
  | succ n ih =>
    rw [Bytewise.nr_reg_get_children_1_svc] at hret
    cases ha : st.allocated fresh with
    | none =>
      rw [ha] at hret
      cases hret
    | some registries =>
      have hlen : registries.length = st.max_count := Bytewise.allocated_length (fun r hr => (hst.block r hr).1) ha
      have hmax : st.max_count < 2 ^ 31 := hst.lt ha
      rw [ha] at hret
      dsimp only at hret
      rw [← hlen] at hret
      rcases Bytewise.get_children_bytes h hsort hv registries with ⟨hfits, heq⟩ | ⟨-, hnil, -⟩ | ⟨-, -, data', heq⟩
      · have hle := Bytewise.length_of_fits hfits
        obtain ⟨names, hnames, hperm, hord⟩ := sorted_names h hsort hshort hle
        rw [heq] at hret
        cases hret
        refine ⟨names, ?_, hperm, hord⟩
        have hcount : (UInt32.ofNat (child_names s parent).length).toNat = (child_names s parent).length := by
          rw [UInt32.toNat_ofNat', Nat.mod_eq_of_lt (by omega)]
        have hfill : (qsort (Bytewise.filled registries (child_names s parent))).length = (child_names s parent).length := by
          rw [(hsort.perm _).length_eq, Bytewise.filled_length registries hle]
        rw [Bytewise.ChildrenStatic.out_val, Option.getD_some, hcount, ← hfill, List.take_left, hnames]
      · rw [hnil] at hlen
        have := hst.two_le
        simp only [List.length_nil] at hlen
        omega
      · rw [heq] at hret
        dsimp only at hret
        rw [if_neg (by simp [hv])] at hret
        cases hrec : Bytewise.nr_reg_get_children_1_svc qsort fresh s parent n
            { st with registries := none, max_count := registries.length * 2 } with
        | none =>
          rw [hrec] at hret
          cases hret
        | some x =>
          obtain ⟨r₁, st₁⟩ := x
          rw [hlen] at hrec
          rw [hlen, hrec] at hret
          dsimp only at hret
          obtain rfl : st₁ = st' := by split at hret <;> cases hret <;> rfl
          exact ih hst.doubled hrec

/-- Doubling reaches room for fewer than 2^30 children before it is too much. -/
theorem exists_doubling {m n : Nat} (hm : 2 ≤ m) (hmax : m < 2 ^ 31) (hn : n < 2 ^ 30) :
    ∃ k, k + 1 ≤ 32 ∧ n < m * 2 ^ k ∧ m * 2 ^ k < 2 ^ 31 := by
  have hex : ∃ k, n < m * 2 ^ k := ⟨n, Nat.lt_of_lt_of_le Nat.lt_two_pow_self (Nat.le_mul_of_pos_left _ (by omega))⟩
  have hlt : m * 2 ^ Nat.find hex < 2 ^ 31 := by
    cases hk : Nat.find hex with
    | zero => simpa using hmax
    | succ k =>
      -- one doubling less is not enough
      have hless : m * 2 ^ k ≤ n := Nat.not_lt.1 (Nat.find_min hex (by omega))
      rw [Nat.pow_succ, ← Nat.mul_assoc]
      omega
  refine ⟨Nat.find hex, ?_, Nat.find_spec hex, hlt⟩
  have hpow : 2 ^ (Nat.find hex + 1) < 2 ^ 31 := by
    rw [Nat.pow_succ, Nat.mul_comm]
    exact Nat.lt_of_le_of_lt (Nat.mul_le_mul_right _ hm) hlt
  have := (Nat.pow_lt_pow_iff_right (by decide)).1 hpow
  omega

/-- The children in some order of `strcasecmp`. -/
def Listing (a : Store) (parent : Bytes) (e : Except Status (List Bytes)) : Prop :=
  ∃ l, a.Lists (Child parent) l ∧ l.Pairwise caseLe ∧
    e = if nr_reg_is_valid parent ≠ .ok then .error .R_BAD_ARGS else .ok l

/-- The lists of the children of a name are those of `child_names`. -/
theorem Refines.children_perm (h : Refines s a) {l : List Bytes} : a.Lists (Child parent) l ↔ l.Perm (child_names s parent) := by
  have hmem : ∀ n, n ∈ child_names s parent ↔ Child parent n ∧ ∃ v, a.lookup n = .ok v := fun n => by
    rw [mem_children h.sound.1, h.stored]
  constructor
  · rintro ⟨hnodup, hl⟩
    exact (List.perm_ext_iff_of_nodup hnodup (children_nodup h.sound.1)).2 fun n => by rw [hl, hmem]
  · intro hperm
    exact ⟨hperm.nodup_iff.2 (children_nodup h.sound.1), fun n => by rw [hperm.mem_iff, hmem]⟩

theorem Refines.roomy (h : Refines s a) {s' : Reg} (h' : Refines s' a) (hroom : Roomy s parent) : Roomy s' parent := by
  have hperm : (child_names s' parent).Perm (child_names s parent) := h.children_perm.1 (h'.children_perm.2 (.refl _))
  exact ⟨by rw [hperm.length_eq]; exact hroom.1, fun n hn => hroom.2 n (hperm.mem_iff.1 hn)⟩

theorem children_answers (hsort : Bytewise.Sorts qsort) (h₀ : Refines s a) (hroom : Roomy s parent) :
    Answers (Listing a parent) xdr_nr_regd_result_strings (nr_reg_get_children_1_svc qsort left) parent a := by
  intro sv h
  obtain ⟨hfew, hshort⟩ := h₀.roomy h.reg hroom
  have hinv := h.reg.sound.1
  unfold nr_reg_get_children_1_svc
  by_cases hv : nr_reg_is_valid parent = .ok
  · obtain ⟨k, hk32, hk, hlt⟩ := exists_doubling h.children.two_le h.children.lt hfew
    obtain ⟨st', hall, -⟩ := Bytewise.svc_serves hinv hsort hv h.children.pre hk hlt
    have hret := hall 32 hk32
    obtain ⟨names, hnames, hperm, hord⟩ := svc_names hinv hsort hv hshort h.children.pre hret
    have hcarry : (Xdr.array xdr_nr_regd_string).Carries names := by
      refine ⟨by rw [hperm.length_eq]; omega, fun n hn => ?_⟩
      have hmem := hperm.mem_iff.1 hn
      have hlen := hshort n hmem
      exact ⟨valid_no_zero (valid_of_stored hinv ((mem_children hinv).1 hmem).2), Nat.lt_trans (Nat.succ_lt_succ hlen) (by decide)⟩
    have hsent : (names.map some).mapM id = some names := by
      rw [List.mapM_map]
      exact List.mapM_pure.trans (congrArg some (List.map_id _))
    rw [hret, Option.bind_some]
    dsimp only
    rw [hnames, hsent]
    refine ⟨(.ok, names), _, rfl, ⟨names, h.reg.children_perm.2 hperm, hord, ?_⟩, ⟨xdr_status_carries _, hcarry⟩,
      ⟨h.reg, h.bytes, h.string, (Bytewise.svc_ok hinv hsort h.children.pre hret).1, h.strings⟩⟩
    rw [resultOf_ok, if_neg (not_not.2 hv)]
  · obtain ⟨registries, ha⟩ := Bytewise.allocated_some left.fresh h.children.lt
    have hret := @Bytewise.svc_invalid qsort _ sv.reg _ _ hv _ ha 31
    rw [hret, Option.bind_some]
    refine ⟨(.R_BAD_ARGS, left.strings), _, rfl, ⟨_, h.reg.children_perm.2 (qsort_perm _), List.pairwise_insertionSort caseLe _, ?_⟩,
      ⟨xdr_status_carries _, left.strings_carried⟩,
      ⟨h.reg, h.bytes, h.string, (Bytewise.svc_ok hinv hsort h.children.pre hret).1, h.strings⟩⟩
    rw [resultOf_error (by simp), if_pos hv]

end

/-! ### Changes -/

/-- Every string in the store is terminated. -/
def Store.Strings (a : Store) : Prop := ∀ n content, a.value n = some (.array true content) → ∃ b, 0 ∉ b ∧ content = b ++ [0]

/-- The value can be carried. -/
def CarriedArg : Arg → Prop
  | .string b => Carried b
  | _ => True

instance : (arg : Arg) → Decidable (CarriedArg arg)
  | .string b => inferInstanceAs (Decidable (Carried b))
  | .scalar _ | .registry | .bytes _ => isTrue trivial

theorem written_string {arg : Arg} (h : CarriedArg arg) {old : Option Value} {content : Bytes}
    (hw : arg.written old = .array true content) : ∃ b, 0 ∉ b ∧ content = b ++ [0] := by
  cases arg with
  | scalar d =>
    cases old with
    | none => cases hw
    | some v => cases v <;> cases hw
  | registry => cases hw
  | bytes b => cases hw
  | string b =>
    obtain ⟨h0, hlen⟩ := h
    cases hw
    refine ⟨b, h0, trunc_eq_self.2 ?_⟩
    rw [List.length_append]
    exact hlen

theorem Store.Strings.set {a : Store} (h : a.Strings) (name : Bytes) {arg : Arg} (harg : CarriedArg arg) :
    (a.set name arg).2.Strings := by
  unfold Store.set
  split
  · split
    · rename_i hv hw
      intro m content hm
      by_cases hle : m ≤ ⟨name, hv⟩
      · rcases hle.eq_or_lt with rfl | hlt
        · rw [Hierarchy.write_self hw.2, Option.some.injEq] at hm
          exact written_string harg hm
        · rw [Hierarchy.write_above hw.2 hlt] at hm
          cases hm
      · rw [Hierarchy.write_other hw.2 hle] at hm
        exact h m content hm
    · exact h
  · exact h

theorem Store.Strings.del {a : Store} (h : a.Strings) (name : Bytes) : (a.del name).2.Strings := by
  unfold Store.del
  split
  · rename_i hv
    intro m content hm
    by_cases hb : m = ⊥
    · rw [hb, Hierarchy.root] at hm
      cases hm
    · by_cases hle : (⟨name, hv⟩ : Name) ≤ m
      · rw [Hierarchy.erase_below hb hle] at hm
        cases hm
      · rw [Hierarchy.erase_other hb hle] at hm
        exact h m content hm
  · exact h

/-- A procedure that does what `op` does to the stores that satisfy `pre`. -/
def Changes {A : Type} (pre : Store → Prop) (op : Store → Status × Store) (run : Svc → A → Option (Status × Svc)) (arg : A) : Prop :=
  ∀ sv a, Serves sv a → pre a → ∃ sv', run sv arg = some ((op a).1, sv') ∧ Serves sv' (op a).2 ∧ pre (op a).2

section
variable {sv : Svc} {a : Store} {name : Bytes} {arg : Arg}

theorem Serves.changed (h : Serves sv a) {s' : Reg} {a' : Store} (hreg : Refines s' a') (hstr : a'.Strings) :
    Serves { sv with reg := s' } a' :=
  ⟨hreg, h.bytes, h.string, h.children, hstr⟩

theorem svc_set_changes (harg : CarriedArg arg) : Changes (Store.Admits · (.set name arg)) (Store.set · name arg)
    (svc_change fun s (x : Bytes × Arg) => Registry.set idle s x.1 x.2) (name, arg) := by
  intro sv a h hadm
  have hp : Proper sv.reg (.set name arg) := (h.reg.proper_iff _).2 hadm
  obtain ⟨ans, s', hcall⟩ := h.reg.returns hp
  obtain ⟨⟨r, s₁⟩, hset, heq⟩ := Option.map_eq_some_iff.1 hcall
  cases heq
  obtain ⟨hr, h'⟩ := h.reg.set hp hset
  refine ⟨{ sv with reg := s₁ }, ?_, h.changed h' (Store.Strings.set h.strings name harg), Store.admits_again hadm⟩
  unfold svc_change
  dsimp only
  rw [hset, Option.map_some, hr]

theorem svc_del_changes : Changes (fun _ => True) (Store.del · name) nr_reg_del_1_svc name := by
  intro sv a h _
  have hp : Proper sv.reg (.del name) := trivial
  obtain ⟨ans, s', hcall⟩ := h.reg.returns hp
  obtain ⟨⟨r, s₁⟩, hdel, heq⟩ := Option.map_eq_some_iff.1 hcall
  cases heq
  obtain ⟨hr, h'⟩ := h.reg.del hdel
  refine ⟨{ sv with reg := s₁ }, ?_, h.changed h' (Store.Strings.del h.strings name), trivial⟩
  unfold nr_reg_del_1_svc svc_change
  rw [hdel, Option.map_some, hr]

theorem svc_fin_changes : Changes (fun _ => True) (fun a => (Status.ok, a)) nr_reg_fin_1_svc name := by
  intro sv a h _
  have hp : Proper sv.reg (.fin name) := trivial
  obtain ⟨ans, s', hcall⟩ := h.reg.returns hp
  obtain ⟨⟨r, s₁⟩, hfin, heq⟩ := Option.map_eq_some_iff.1 hcall
  cases heq
  obtain ⟨rfl, h'⟩ := h.reg.fin hfin
  refine ⟨{ sv with reg := s₁ }, ?_, h.changed h' h.strings, trivial⟩
  unfold nr_reg_fin_1_svc svc_change
  rw [hfin, Option.map_some]

end

/-! ## The client -/

/-- An attempt is answered, and there was a connection up to then. -/
def Link.Answered (link : Link) : Prop := ∃ k < 6, link.fate k = .answered ∧ ∀ j < k, link.fate j ≠ .unreachable

/-- What a call returns that had no answer. -/
def NoAnswer {α : Type} (x : Except Status α) : Prop := x = .error .R_FAILED ∨ x = .error .R_IO_ERROR

/-- A call that leaves the store as it is returns what satisfies `P`, or had no
answer. -/
def Delivers (link : Link) (a : Store) {α : Type} (P : Except Status α → Prop) (o : Option (Except Status α × Svc)) : Prop :=
  ∃ x sv', o = some (x, sv') ∧ Serves sv' a ∧ (P x ∨ ¬ link.Answered ∧ NoAnswer x)

/-- A change is made once; without an answer, once or not at all. -/
def Effects (link : Link) (a : Store) (op : Store → Status × Store) (o : Option (Status × Svc)) : Prop :=
  ∃ r sv' a', o = some (r, sv') ∧ Serves sv' a' ∧
    ((r = (op a).1 ∧ a' = (op a).2) ∨
      ¬ link.Answered ∧ (r = .R_FAILED ∨ r = .R_IO_ERROR) ∧ (a' = a ∨ a' = (op a).2))

section
variable {qsort : List Bytewise.NR_registry → List Bytewise.NR_registry} {link : Link} {sv : Svc} {a : Store} {name : Bytes}

theorem CLIENT_once {A R : Type} {proc : Proc} {xargs : Xdr A} {arg : A} {xres : Xdr R} (retval : R → Status)
    {spec : Store → R → Store → Prop} {rel : Svc → Store → Prop} (hrep : Repeatable spec)
    (hstub : ∀ tries sv a, rel sv a → ∃ r a' sv', stub qsort link proc xargs arg xres tries sv = some (some r, sv') ∧
      spec a r a' ∧ rel sv' a') (h : rel sv a) :
    ∃ x sv' a', CLIENT qsort link proc xargs arg xres retval sv = some (x, sv') ∧ rel sv' a' ∧
      ((∃ r, spec a r a' ∧ x = if retval r ≠ .ok then .error (retval r) else .ok r) ∨
        ¬ link.Answered ∧ NoAnswer x ∧ (a' = a ∨ ∃ r, spec a r a')) := by
  have hends : ∀ tries sv a, rel sv a → ∃ r a' sv', stub qsort link proc xargs arg xres tries sv = some (some r, sv') ∧
      rel sv' a' := by
    intro tries sv a h
    obtain ⟨r, a', sv', hst, -, h'⟩ := hstub tries sv a h
    exact ⟨r, a', sv', hst, h'⟩
  have hcall : ∀ tries sv a x sv', rel sv a → stub qsort link proc xargs arg xres tries sv = some (x, sv') →
      ∃ r a', x = some r ∧ spec a r a' ∧ rel sv' a' := by
    intro tries sv a x sv' h hst
    obtain ⟨r, a', sv₁, hst₁, hspec, h'⟩ := hstub tries sv a h
    rw [hst] at hst₁
    cases hst₁
    exact ⟨r, a', rfl, hspec, h'⟩
  obtain ⟨e, sv', he, hanswered⟩ : ∃ e sv', attempts (stub qsort link proc xargs arg xres) link.fate 0 6 sv = some (e, sv') ∧
      ((∃ k < 6, link.fate (0 + k) = .answered ∧ ∀ j < k, link.fate (0 + j) ≠ .unreachable) → ∃ r, e = .answered r) :=
    attempts_ends hends h
  obtain ⟨a', honce, h'⟩ := attempts_once hrep hcall h he
  simp only [Nat.zero_add] at hanswered
  unfold CLIENT
  rw [he, Option.map_some]
  cases e with
  | answered r => exact ⟨_, sv', a', rfl, h', .inl ⟨r, honce, rfl⟩⟩
  | unreachable =>
    refine ⟨_, sv', a', rfl, h', .inr ⟨fun ha => ?_, .inl rfl, honce⟩⟩
    obtain ⟨r, hr⟩ := hanswered ha
    cases hr
  | gave_up =>
    refine ⟨_, sv', a', rfl, h', .inr ⟨fun ha => ?_, .inr rfl, honce⟩⟩
    obtain ⟨r, hr⟩ := hanswered ha
    cases hr

theorem get_delivers {R : Type} {P : Except Status R → Prop} {proc : Proc} {xres : Xdr (Status × R)}
    {run : Leftover → Svc → Bytes → Option ((Status × R) × Svc)}
    (hproc : ∀ left, procedure qsort left proc = ⟨xdr_nr_regd_registry, xres, run left⟩)
    (hans : ∀ left, Answers P xres (run left) name a) (hname : Carried name) (h : Serves sv a) :
    Delivers link a P (clnt_get qsort link proc xres sv name) := by
  have hstub : ∀ tries sv a₁, (Serves sv a₁ ∧ a₁ = a) → ∃ r a' sv',
      stub qsort link proc xdr_nr_regd_registry name xres tries sv = some (some r, sv') ∧
      (a' = a₁ ∧ P (resultOf r)) ∧ Serves sv' a' ∧ a' = a := by
    rintro tries sv₁ a₁ ⟨h₁, rfl⟩
    obtain ⟨r, sv', hrun, hP, hcarry, h'⟩ := hans (link.left tries) sv₁ h₁
    exact ⟨r, a₁, sv', stub_run (hproc _) hname hrun hcarry, ⟨rfl, hP⟩, h', rfl⟩
  have hrep : Repeatable fun (a₁ : Store) r a' => a' = a₁ ∧ P (resultOf r) := by
    rintro a₁ r a' r' a'' ⟨rfl, -⟩ ⟨rfl, hP⟩
    exact ⟨rfl, hP⟩
  obtain ⟨x, sv', a', hx, ⟨h', rfl⟩, hor⟩ := CLIENT_once Prod.fst hrep hstub ⟨h, rfl⟩
  unfold clnt_get
  rw [hx]
  refine ⟨_, sv', rfl, h', ?_⟩
  rcases hor with ⟨r, ⟨-, hP⟩, rfl⟩ | ⟨hno, hlost, -⟩
  · left
    unfold resultOf at hP
    split <;> rename_i hr
    · rwa [if_pos hr] at hP
    · rwa [if_neg hr] at hP
  · right
    refine ⟨hno, ?_⟩
    rcases hlost with rfl | rfl
    · exact .inl rfl
    · exact .inr rfl

theorem Delivers.check {R Q : Type} {P : Except Status R → Prop} {P' : Except Status Q → Prop} {check : R → Except Status Q}
    {o : Option (Except Status R × Svc)} (h : Delivers link a P o) (hP : ∀ x, P x → P' (x.bind check)) :
    Delivers link a P' (clnt_check check o) := by
  obtain ⟨x, sv', rfl, h', hor⟩ := h
  refine ⟨_, sv', rfl, h', hor.imp (hP x) ?_⟩
  rintro ⟨hno, rfl | rfl⟩
  · exact ⟨hno, .inl rfl⟩
  · exact ⟨hno, .inr rfl⟩

theorem change_effects {A : Type} {pre : Store → Prop} {op : Store → Status × Store} {proc : Proc} {xargs : Xdr A}
    {run : Svc → A → Option (Status × Svc)} (hproc : ∀ left, procedure qsort left proc = ⟨xargs, xdr_status, run⟩) {arg : A}
    (hcarry : xargs.Carries arg) (hch : Changes pre op run arg) (hagain : ∀ a, op (op a).2 = op a) (h : Serves sv a) (hpre : pre a) :
    Effects link a op (clnt_change qsort link proc xargs sv arg) := by
  have hstub : ∀ tries sv a, (Serves sv a ∧ pre a) → ∃ r a' sv', stub qsort link proc xargs arg xdr_status tries sv = some (some r, sv') ∧
      (r = (op a).1 ∧ a' = (op a).2) ∧ Serves sv' a' ∧ pre a' := by
    rintro tries sv a ⟨h, hpre⟩
    obtain ⟨sv', hrun, h', hpre'⟩ := hch sv a h hpre
    exact ⟨_, _, sv', stub_run (hproc _) hcarry hrun (xdr_status_carries _), ⟨rfl, rfl⟩, h', hpre'⟩
  have hrep : Repeatable fun (a : Store) (r : Status) a' => r = (op a).1 ∧ a' = (op a).2 := by
    rintro a r a' r' a'' ⟨-, rfl⟩ ⟨rfl, rfl⟩
    rw [hagain]
    exact ⟨rfl, rfl⟩
  obtain ⟨x, sv', a', hx, ⟨h', -⟩, hor⟩ := CLIENT_once id hrep hstub ⟨h, hpre⟩
  unfold clnt_change
  rw [hx]
  rcases hor with ⟨r, ⟨rfl, rfl⟩, rfl⟩ | ⟨hno, hlost, hdone⟩
  · refine ⟨(op a).1, sv', _, ?_, h', .inl ⟨rfl, rfl⟩⟩
    by_cases hr : (op a).1 = .ok
    · simp [hr]
    · simp [hr]
  · have hdone' : a' = a ∨ a' = (op a).2 := hdone.imp_right fun ⟨_, _, ha⟩ => ha
    rcases hlost with rfl | rfl
    · exact ⟨.R_FAILED, sv', a', rfl, h', .inr ⟨hno, .inl rfl, hdone'⟩⟩
    · exact ⟨.R_IO_ERROR, sv', a', rfl, h', .inr ⟨hno, .inr rfl, hdone'⟩⟩

end

end Nrappkit.Service
