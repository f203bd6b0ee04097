import Nrappkit.Service.Remote
/-!
# Requests of any bytes

The server reads requests that no client of its own has to have sent. What it
accepts is a call with terminated strings, and does to the registry what that
call does; what it does not accept leaves the registry alone.
-/
open Lib Nrappkit.Registry Nrappkit.Assoc Nrappkit.Control

namespace Nrappkit.Service

/-! ## What a request asks for -/

/-- The call on the name that arrives. -/
def asks (args : Bytes) (c : Bytes → Call) : Option Call := (xdr_nr_regd_registry.decode args).map fun x => c x.1

/-- The setter for the name and the value that arrive. -/
def asks_set {α : Type} (x : Xdr α) (args : Bytes) (arg : α → Arg) : Option Call :=
  ((xdr_argument x).decode args).map fun y => .set y.1.1 (arg y.1.2)

/-- The call that a procedure makes on the registry. A getter looks at the size
in the client. -/
def Proc.call (args : Bytes) : Proc → Option Call
  | .NULLPROC | .NR_REG_DUMP | .NR_REG_REGISTER_FOR_CALLBACKS => none
  | .NR_REG_GET_CHAR => asks args (.get · .CHAR 0)
  | .NR_REG_GET_UCHAR => asks args (.get · .UCHAR 0)
  | .NR_REG_GET_INT2 => asks args (.get · .INT2 0)
  | .NR_REG_GET_UINT2 => asks args (.get · .UINT2 0)
  | .NR_REG_GET_INT4 => asks args (.get · .INT4 0)
  | .NR_REG_GET_UINT4 => asks args (.get · .UINT4 0)
  | .NR_REG_GET_INT8 => asks args (.get · .INT8 0)
  | .NR_REG_GET_UINT8 => asks args (.get · .UINT8 0)
  | .NR_REG_GET_DOUBLE => asks args (.get · .DOUBLE 0)
  | .NR_REG_GET_REGISTRY => asks args (.get · .REGISTRY 0)
  | .NR_REG_GET_BYTES => asks args (.get · .BYTES 0)
  | .NR_REG_GET_STRING => asks args (.get · .STRING 0)
  | .NR_REG_GET_LENGTH => asks args .get_length
  | .NR_REG_GET_TYPE => asks args .get_type
  | .NR_REG_SET_CHAR => asks_set xdr_char args .scalar
  | .NR_REG_SET_UCHAR => asks_set xdr_u_char args .scalar
  | .NR_REG_SET_INT2 => asks_set xdr_int16_t args .scalar
  | .NR_REG_SET_UINT2 => asks_set xdr_u_int16_t args .scalar
  | .NR_REG_SET_INT4 => asks_set xdr_int32_t args .scalar
  | .NR_REG_SET_UINT4 => asks_set xdr_u_int32_t args .scalar
  | .NR_REG_SET_INT8 => asks_set xdr_int64_t args .scalar
  | .NR_REG_SET_UINT8 => asks_set xdr_u_int64_t args .scalar
  | .NR_REG_SET_DOUBLE => asks_set xdr_double args .scalar
  | .NR_REG_SET_REGISTRY => asks args (.set · .registry)
  | .NR_REG_SET_BYTES => asks_set xdr_nr_regd_data args .bytes
  | .NR_REG_SET_STRING => asks_set xdr_nr_regd_string args .string
  | .NR_REG_DEL => asks args .del
  | .NR_REG_FIN => asks args .fin
  | .NR_REG_GET_CHILD_COUNT => asks args .get_child_count
  | .NR_REG_GET_CHILDREN => asks args (.get_children · 0)

def requested (rq_proc : Nat) (args : Bytes) : Option Call := procs[rq_proc]?.bind (Proc.call args)

/-- The setter strands no node, and the server has room for the children. -/
def Tame (s : Reg) : Call → Prop
  | .set name _ => strands s name = false
  | .get_children name _ => Roomy s name
  | _ => True

instance (s : Reg) : (c : Call) → Decidable (Tame s c)
  | .set name _ => inferInstanceAs (Decidable (strands s name = false))
  | .get_children name _ => inferInstanceAs (Decidable (Roomy s name))
  | .del _ | .fin _ | .get .. | .get_length _ | .get_type _ | .get_child_count _ => isTrue trivial

/-- What a request does: the call it asks for, or nothing. -/
def Served (a : Store) (c : Option Call) (accepted : Accepted) (a' : Store) : Prop :=
  (∃ c', c = some c' ∧ (∃ result, accepted = .success result) ∧ ∃ ans, a.DoesRemotely c' ans a') ∨ (c = none ∧ a' = a)

section
variable {qsort : List Bytewise.NR_registry → List Bytewise.NR_registry} {left : Leftover} {sv : Svc} {a : Store}
  {args : Bytes} {rq_proc : Nat} {proc : Proc}

/-! ## One request -/

/-- What is read as a name or a string can be carried. -/
theorem decoded_carried {x : Bytes × Bytes} (h : Xdr.string.decode args = some x) : Carried x.1 :=
  Xdr.string_decode_no_zero h

theorem table (hn : procs[rq_proc]? = some proc) {A R : Type} {xargs : Xdr A} {xres : Xdr R} {run : Svc → A → Option (R × Svc)}
    (hproc : procedure qsort left proc = ⟨xargs, xres, run⟩) :
    (fun n => procs[n]?.map (procedure qsort left)) rq_proc = some ⟨xargs, xres, run⟩ := by
  show procs[rq_proc]?.map (procedure qsort left) = _
  rw [hn, Option.map_some, hproc]

theorem serve_read (c : Bytes → Call) {α : Type} {P : Bytes → Except Status α → Prop} {xres : Xdr (Status × α)}
    {run : Svc → Bytes → Option ((Status × α) × Svc)} (hn : procs[rq_proc]? = some proc)
    (hproc : procedure qsort left proc = ⟨xdr_nr_regd_registry, xres, run⟩)
    (hans : ∀ name, Carried name → Tame sv.reg (c name) → Answers (P name) xres run name a)
    (hdoes : ∀ name, Tame sv.reg (c name) → ∃ ans, a.DoesRemotely (c name) ans a) (h : Serves sv a)
    (htame : ∀ c', asks args c = some c' → Tame sv.reg c') :
    ∃ accepted sv' a', registrydprog_1 qsort left sv rq_proc args = some (accepted, sv') ∧ Serves sv' a' ∧
      Served a (asks args c) accepted a' := by
  cases hdec : xdr_nr_regd_registry.decode args with
  | none => exact ⟨_, sv, a, dispatch_garbage (table hn hproc) hdec, h, .inr ⟨by rw [asks, hdec]; rfl, rfl⟩⟩
  | some x =>
    have hask : asks args c = some (c x.1) := by rw [asks, hdec]; rfl
    have ht := htame _ hask
    obtain ⟨r, sv', hrun, -, -, h'⟩ := hans x.1 (decoded_carried hdec) ht sv h
    exact ⟨_, sv', a, by rw [registrydprog_1, dispatch_run (table hn hproc) hdec, hrun]; rfl, h', .inl ⟨_, hask, ⟨_, rfl⟩, hdoes x.1 ht⟩⟩

theorem serve_change {A : Type} (c : A → Call) (pre : A → Store → Prop) (op : A → Store → Status × Store) {xargs : Xdr A}
    {run : Svc → A → Option (Status × Svc)} (hn : procs[rq_proc]? = some proc)
    (hproc : procedure qsort left proc = ⟨xargs, xdr_status, run⟩)
    (hch : ∀ arg rest, xargs.decode args = some (arg, rest) → Changes (pre arg) (op arg) run arg)
    (hpre : ∀ arg, Tame sv.reg (c arg) → pre arg a)
    (hdoes : ∀ arg, a.DoesRemotely (c arg) (.status (op arg a).1) (op arg a).2) (h : Serves sv a)
    (htame : ∀ c', (xargs.decode args).map (fun x => c x.1) = some c' → Tame sv.reg c') :
    ∃ accepted sv' a', registrydprog_1 qsort left sv rq_proc args = some (accepted, sv') ∧ Serves sv' a' ∧
      Served a ((xargs.decode args).map fun x => c x.1) accepted a' := by
  cases hdec : xargs.decode args with
  | none => exact ⟨_, sv, a, dispatch_garbage (table hn hproc) hdec, h, .inr ⟨rfl, rfl⟩⟩
  | some x =>
    obtain ⟨sv', hrun, h', -⟩ := hch x.1 x.2 hdec sv a h (hpre x.1 (htame _ (by rw [hdec]; rfl)))
    exact ⟨_, sv', _, by rw [registrydprog_1, dispatch_run (table hn hproc) hdec, hrun]; rfl, h', .inl ⟨_, rfl, ⟨_, rfl⟩, _, hdoes x.1⟩⟩

theorem serve_scalar {type : NR_REG_TYPE} {x : Xdr Scalar} (hx : Scalars type x) {get : Reg → Bytes → Option (Except Status Scalar)}
    (hget : ∀ s name size, getter s name size type = (get s name).map (·.map .scalar)) (hn : procs[rq_proc]? = some proc)
    (hproc : procedure qsort left proc = ⟨xdr_nr_regd_registry, xdr_result x, svc_get get (left.scalar type)⟩)
    (htype : (left.scalar type).type = type) (h : Serves sv a) (htame : ∀ c', asks args (.get · type 0) = some c' → Tame sv.reg c') :
    ∃ accepted sv' a', registrydprog_1 qsort left sv rq_proc args = some (accepted, sv') ∧ Serves sv' a' ∧
      Served a (asks args (.get · type 0)) accepted a' :=
  serve_read (.get · type 0) hn hproc (fun _ _ _ => scalar_answers hx hget htype) (fun name _ => ⟨.value (a.get name type 0), rfl, rfl⟩) h htame

/-- A setter for a value that can be carried whenever it was read. -/
theorem serve_set {α : Type} {x : Xdr α} {arg : α → Arg} (hn : procs[rq_proc]? = some proc)
    (hproc : procedure qsort left proc = ⟨xdr_argument x, xdr_status, svc_set arg⟩)
    (hcarry : ∀ bs v rest, x.decode bs = some (v, rest) → CarriedArg (arg v)) (h : Serves sv a)
    (htame : ∀ c', asks_set x args arg = some c' → Tame sv.reg c') :
    ∃ accepted sv' a', registrydprog_1 qsort left sv rq_proc args = some (accepted, sv') ∧ Serves sv' a' ∧
      Served a (asks_set x args arg) accepted a' := by
  refine serve_change (fun y : Bytes × α => .set y.1 (arg y.2)) (fun y a => a.Admits (.set y.1 (arg y.2)))
    (fun y a => a.set y.1 (arg y.2)) hn hproc (fun y rest hdec => ?_) (fun y ht => (h.reg.proper_iff (.set y.1 (arg y.2))).1 ht)
    (fun y => ⟨rfl, rfl⟩) h htame
  obtain ⟨p, -, hdec⟩ := Option.bind_eq_some_iff.1 hdec
  obtain ⟨q, hq, hy⟩ := Option.map_eq_some_iff.1 hdec
  cases hy
  exact svc_set_changes (hcarry _ _ _ hq)

theorem walk_print (names : List Bytes) : walkNames (fun (_ : Unit) _ => some (.ok, ())) () names = some (.ok, ()) := by
  induction names with
  | nil => rfl
  | cons name names ih =>
    rw [walkNames]
    exact ih

theorem local_dump {s : Reg} (h : RInv s) : nr_reg_local_dump s = some .ok := by
  rw [nr_reg_local_dump, nr_reg_local_dump_print, (iter_reads h).2.2, walk_print]
  rfl

/-- A request that asks for no call. -/
theorem serve_none {A : Type} {xargs : Xdr A} {run : Svc → A → Option (Status × Svc)} (hn : procs[rq_proc]? = some proc)
    (hproc : procedure qsort left proc = ⟨xargs, xdr_status, run⟩) (hrun : ∀ arg, ∃ r, run sv arg = some (r, sv)) (h : Serves sv a) :
    ∃ accepted sv' a', registrydprog_1 qsort left sv rq_proc args = some (accepted, sv') ∧ Serves sv' a' ∧
      Served a none accepted a' := by
  cases hdec : xargs.decode args with
  | none => exact ⟨_, sv, a, dispatch_garbage (table hn hproc) hdec, h, .inr ⟨rfl, rfl⟩⟩
  | some x =>
    obtain ⟨r, hr⟩ := hrun x.1
    exact ⟨_, sv, a, by rw [registrydprog_1, dispatch_run (table hn hproc) hdec, hr]; rfl, h, .inr ⟨rfl, rfl⟩⟩

/-- Every request whose call strands no node is answered, and does what it asks
for. -/
theorem serve_any (hsort : Bytewise.Sorts qsort) (h : Serves sv a)
    (htame : ∀ c, requested rq_proc args = some c → Tame sv.reg c) :
    ∃ accepted sv' a', registrydprog_1 qsort left sv rq_proc args = some (accepted, sv') ∧ Serves sv' a' ∧
      Served a (requested rq_proc args) accepted a' := by
  cases hn : procs[rq_proc]? with
  | none =>
    refine ⟨.proc_unavail, sv, a, ?_, h, .inr ⟨by rw [requested, hn]; rfl, rfl⟩⟩
    unfold registrydprog_1 dispatch
    simp only [hn, Option.map_none]
  | some proc =>
    have hreq : requested rq_proc args = proc.call args := by rw [requested, hn, Option.bind_some]
    rw [hreq] at htame ⊢
    cases proc with
    | NULLPROC => exact ⟨_, sv, a, by rw [registrydprog_1, dispatch_run (table hn rfl) rfl]; rfl, h, .inr ⟨rfl, rfl⟩⟩
    | NR_REG_DUMP => exact serve_none hn rfl (fun _ => ⟨_, by rw [nr_reg_dump_1_svc, local_dump h.reg.sound.1]; rfl⟩) h
    | NR_REG_REGISTER_FOR_CALLBACKS => exact serve_none hn rfl (fun _ => ⟨_, rfl⟩) h
    | NR_REG_GET_CHAR => exact serve_scalar char_scalars (fun _ _ _ => rfl) hn rfl (left.scalar_type (._char 0)) h htame
    | NR_REG_GET_UCHAR => exact serve_scalar u_char_scalars (fun _ _ _ => rfl) hn rfl (left.scalar_type (._uchar 0)) h htame
    | NR_REG_GET_INT2 => exact serve_scalar int16_scalars (fun _ _ _ => rfl) hn rfl (left.scalar_type (._nr_int2 0)) h htame
    | NR_REG_GET_UINT2 => exact serve_scalar u_int16_scalars (fun _ _ _ => rfl) hn rfl (left.scalar_type (._nr_uint2 0)) h htame
    | NR_REG_GET_INT4 => exact serve_scalar int32_scalars (fun _ _ _ => rfl) hn rfl (left.scalar_type (._nr_int4 0)) h htame
    | NR_REG_GET_UINT4 => exact serve_scalar u_int32_scalars (fun _ _ _ => rfl) hn rfl (left.scalar_type (._nr_uint4 0)) h htame
    | NR_REG_GET_INT8 => exact serve_scalar int64_scalars (fun _ _ _ => rfl) hn rfl (left.scalar_type (._nr_int8 0)) h htame
    | NR_REG_GET_UINT8 => exact serve_scalar u_int64_scalars (fun _ _ _ => rfl) hn rfl (left.scalar_type (._nr_uint8 0)) h htame
    | NR_REG_GET_DOUBLE => exact serve_scalar double_scalars (fun _ _ _ => rfl) hn rfl (left.scalar_type (._double 0)) h htame
    | NR_REG_GET_REGISTRY =>
      exact serve_read (.get · .REGISTRY 0) hn rfl (fun _ hname _ => registry_answers hname) (fun name _ => ⟨.value (a.get name .REGISTRY 0), rfl, rfl⟩) h htame
    | NR_REG_GET_BYTES =>
      exact serve_read (.get · .BYTES 0) hn rfl (fun _ _ _ => bytes_answers) (fun name _ => ⟨.value (a.get name .BYTES 0), rfl, rfl⟩) h htame
    | NR_REG_GET_STRING =>
      exact serve_read (.get · .STRING 0) hn rfl (fun _ _ _ => string_answers) (fun name _ => ⟨.value (a.get name .STRING 0), rfl, rfl⟩) h htame
    | NR_REG_GET_LENGTH => exact serve_read .get_length hn rfl (fun _ _ _ => length_answers) (fun _ _ => ⟨_, rfl, rfl⟩) h htame
    | NR_REG_GET_TYPE => exact serve_read .get_type hn rfl (fun _ _ _ => type_answers) (fun _ _ => ⟨_, rfl, rfl⟩) h htame
    | NR_REG_SET_CHAR => exact serve_set hn rfl (fun _ _ _ _ => trivial) h htame
    | NR_REG_SET_UCHAR => exact serve_set hn rfl (fun _ _ _ _ => trivial) h htame
    | NR_REG_SET_INT2 => exact serve_set hn rfl (fun _ _ _ _ => trivial) h htame
    | NR_REG_SET_UINT2 => exact serve_set hn rfl (fun _ _ _ _ => trivial) h htame
    | NR_REG_SET_INT4 => exact serve_set hn rfl (fun _ _ _ _ => trivial) h htame
    | NR_REG_SET_UINT4 => exact serve_set hn rfl (fun _ _ _ _ => trivial) h htame
    | NR_REG_SET_INT8 => exact serve_set hn rfl (fun _ _ _ _ => trivial) h htame
    | NR_REG_SET_UINT8 => exact serve_set hn rfl (fun _ _ _ _ => trivial) h htame
    | NR_REG_SET_DOUBLE => exact serve_set hn rfl (fun _ _ _ _ => trivial) h htame
    | NR_REG_SET_REGISTRY =>
      exact serve_change (fun name => .set name .registry) (fun name a => a.Admits (.set name .registry))
        (fun name a => a.set name .registry) hn rfl (fun _ _ _ => svc_set_changes trivial)
        (fun name ht => (h.reg.proper_iff (.set name .registry)).1 ht) (fun _ => ⟨rfl, rfl⟩) h htame
    | NR_REG_SET_BYTES => exact serve_set hn rfl (fun _ _ _ _ => trivial) h htame
    | NR_REG_SET_STRING => exact serve_set hn rfl (fun _ _ _ hdec => Xdr.string_decode_no_zero hdec) h htame
    | NR_REG_DEL =>
      exact serve_change .del (fun _ _ => True) (fun name a => a.del name) hn rfl
        (fun _ _ _ => svc_del_changes) (fun _ _ => trivial) (fun _ => ⟨rfl, rfl⟩) h htame
    | NR_REG_FIN =>
      exact serve_change .fin (fun _ _ => True) (fun _ a => (Status.ok, a)) hn rfl
        (fun _ _ _ => svc_fin_changes) (fun _ _ => trivial) (fun _ => ⟨rfl, rfl⟩) h htame
    | NR_REG_GET_CHILD_COUNT =>
      refine serve_read .get_child_count hn rfl (fun _ _ _ => child_count_answers) (fun name _ => ?_) h htame
      obtain ⟨l, hl, -⟩ := h.reg.get_child_count name
      exact ⟨_, rfl, l, hl, rfl⟩
    | NR_REG_GET_CHILDREN =>
      refine serve_read (.get_children · 0) hn rfl (fun name _ ht => children_answers hsort h.reg ht) (fun name _ => ?_) h htame
      exact ⟨_, rfl, _, h.reg.children_perm.2 (qsort_perm _), List.pairwise_insertionSort caseLe _, rfl⟩

end

/-! ## Runs -/

/-- A request: the procedure and the bytes behind it, with the memory it meets. -/
structure Message where
  rq_proc : Nat
  args : Bytes
  left : Leftover

def receive (qsort : List Bytewise.NR_registry → List Bytewise.NR_registry) (sv : Svc) (m : Message) : Option (Accepted × Svc) :=
  registrydprog_1 qsort m.left sv m.rq_proc m.args

/-- In every run of requests of any bytes, the server answers each, and its
registry does the call that the bytes ask for, or nothing where they ask for
none. -/
theorem receives_any_bytes {qsort : List Bytewise.NR_registry → List Bytewise.NR_registry} (hsort : Bytewise.Sorts qsort)
    {sv₀ sv : Svc} (h₀ : sv₀.Started) {evs : List (Message × Accepted)}
    (hrun : Run (receive qsort) (fun sv m => ∀ c, requested m.rq_proc m.args = some c → Tame sv.reg c) sv₀ evs sv) :
    ∃ a, SpecRun (fun a (m : Message) accepted a' => Served a (requested m.rq_proc m.args) accepted a') Hierarchy.empty evs a ∧
      (∀ n : Name, sv.reg.map n.bytes = (a.value n).map some) ∧
      ∀ m : Message, (∀ c, requested m.rq_proc m.args = some c → Tame sv.reg c) →
        ∃ accepted sv', receive qsort sv m = some (accepted, sv') := by
  have hstep : ∀ sv a (m : Message) accepted sv', Serves sv a → (∀ c, requested m.rq_proc m.args = some c → Tame sv.reg c) →
      receive qsort sv m = some (accepted, sv') → ∃ a', Served a (requested m.rq_proc m.args) accepted a' ∧ Serves sv' a' := by
    intro sv a m accepted sv' h hm hst
    obtain ⟨accepted₁, sv₁, a', hst₁, h', hserved⟩ := serve_any hsort h hm
    have hst' : registrydprog_1 qsort m.left sv m.rq_proc m.args = some (accepted, sv') := hst
    rw [hst₁] at hst'
    cases hst'
    exact ⟨a', hserved, h'⟩
  obtain ⟨a, hspec, h⟩ := hrun.refines Serves (started_serves h₀) hstep
  refine ⟨a, hspec, h.reg.value, fun m hm => ?_⟩
  obtain ⟨accepted, sv', -, hst, -⟩ := serve_any hsort h hm
  exact ⟨accepted, sv', hst⟩

instance (s : Reg) (rq_proc : Nat) (args : Bytes) : Decidable (∀ c, requested rq_proc args = some c → Tame s c) :=
  match h : requested rq_proc args with
  | none => isTrue fun _ hc => by cases hc
  | some c => decidable_of_iff (Tame s c) ⟨fun ht c' hc => by cases hc; exact ht, fun hall => hall c rfl⟩

/-- A name that is set, a request that breaks off and one for no procedure. -/
theorem receives_any_bytes_broken : ∃ (sv₀ sv : Svc) (evs : List (Message × Accepted)) (a : Store), sv₀.Started ∧
    Run (receive Bytewise.sortTexts) (fun sv m => ∀ c, requested m.rq_proc m.args = some c → Tame sv.reg c) sv₀ evs sv ∧
    evs.map Prod.snd = [.success [0, 0, 0, 0], .garbage_args, .success [0, 0, 0, 0], .proc_unavail] ∧
    SpecRun (fun a (m : Message) accepted a' => Served a (requested m.rq_proc m.args) accepted a') Hierarchy.empty evs a := by
  have hex : ((nr_reg_local_init idle).any fun x => x.1 = .ok && (exec (receive Bytewise.sortTexts)
      (fun sv m => ∀ c, requested m.rq_proc m.args = some c → Tame sv.reg c) ⟨⟨x.2, {}, {}⟩, {}⟩
      [⟨24, [0, 0, 0, 1, 97, 0, 0, 0], zeros⟩, ⟨26, [0, 0, 0, 9, 97], zeros⟩, ⟨31, [], zeros⟩, ⟨99, [], zeros⟩]).any
      fun y => y.1 = [.success [0, 0, 0, 0], .garbage_args, .success [0, 0, 0, 0], .proc_unavail]) = true := by decide +kernel
  obtain ⟨⟨r, s₀⟩, hi, hx⟩ := (Option.any_eq_true _ _).1 hex
  simp only [Bool.and_eq_true, decide_eq_true_eq] at hx
  obtain ⟨rfl, hy⟩ := hx
  obtain ⟨⟨answers, sv⟩, hexec, hanswers⟩ := (Option.any_eq_true _ _).1 hy
  have hrun : Run (receive Bytewise.sortTexts) (fun sv m => ∀ c, requested m.rq_proc m.args = some c → Tame sv.reg c) _ _ sv :=
    (Run.exec .nil hexec).mono fun _ _ hp => of_decide_eq_true hp
  have hstart : Svc.Started ⟨⟨s₀, {}, {}⟩, {}⟩ := ⟨hi, rfl, rfl, rfl⟩
  obtain ⟨a, hspec, -⟩ := receives_any_bytes Bytewise.sortTexts_sorts hstart hrun
  have hans : answers = [.success [0, 0, 0, 0], .garbage_args, .success [0, 0, 0, 0], .proc_unavail] := of_decide_eq_true hanswers
  subst hans
  exact ⟨_, sv, _, a, hstart, hrun, rfl, hspec⟩

end Nrappkit.Service
