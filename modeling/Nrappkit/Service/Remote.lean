import Nrappkit.Service.Link
/-!
# The remote registry

Every call in a client, over a link that loses requests and answers: a registry
that is local to the client, but for the calls that had no answer.
-/
open Lib Nrappkit.Registry Nrappkit.Assoc Nrappkit.Control

namespace Nrappkit.Service

/-! ## What a call does -/

/-- The answer was not the server's. -/
def Answer.NotServed : Answer → Prop
  | .status r => r = .R_FAILED ∨ r = .R_IO_ERROR
  | .value x => NoAnswer x
  | .length x => NoAnswer x
  | .type x => NoAnswer x
  | .count x => NoAnswer x
  | .children x => NoAnswer x

/-- As in the store, but for the list of children: the caller's array may be
filled, and names that compare equal are in any order. -/
def Store.DoesRemotely (a : Store) : Call → Answer → Store → Prop
  | .get_children name size, ans, a' => a' = a ∧ ∃ l, a.Lists (Child name) l ∧ l.Pairwise caseLe ∧
      ans = .children (if nr_reg_is_valid name ≠ .ok then .error .R_BAD_ARGS
        else if l.length ≤ size then .ok l else .error .R_BAD_ARGS)
  | c, ans, a' => a.Does c ans a'

/-- The call is done once and answered, or it is not answered and done once or
not at all. -/
def Store.DoesOver (a : Store) (x : Link × Call) (ans : Answer) (a' : Store) : Prop :=
  a.DoesRemotely x.2 ans a' ∨
    ¬ x.1.Answered ∧ ans.NotServed ∧ (a' = a ∨ ∃ ans', a.DoesRemotely x.2 ans' a')

/-- Names and strings can be carried, the setter strands no node, and the server
has room for the children. -/
def Sendable (s : Reg) : Call → Prop
  | .set name arg => Carried name ∧ CarriedArg arg ∧ strands s name = false
  | .get_children name _ => Carried name ∧ Roomy s name
  | .del name | .fin name | .get name _ _ | .get_length name | .get_type name | .get_child_count name => Carried name

instance (s : Reg) : (c : Call) → Decidable (Sendable s c)
  | .set name arg => inferInstanceAs (Decidable (Carried name ∧ CarriedArg arg ∧ strands s name = false))
  | .get_children name _ => inferInstanceAs (Decidable (Carried name ∧ Roomy s name))
  | .del name | .fin name | .get name _ _ | .get_length name | .get_type name | .get_child_count name =>
    inferInstanceAs (Decidable (Carried name))

section
variable {qsort : List Bytewise.NR_registry → List Bytewise.NR_registry} {link : Link} {sv : Svc} {a : Store} {name : Bytes}

/-! ### Reads -/

theorem scalar_delivers {type : NR_REG_TYPE} {x : Xdr Scalar} (hx : Scalars type x) {get : Reg → Bytes → Option (Except Status Scalar)}
    (hget : ∀ s name size, getter s name size type = (get s name).map (·.map .scalar)) {proc : Proc}
    (hproc : ∀ left, procedure qsort left proc = ⟨xdr_nr_regd_registry, xdr_result x, svc_get get (left.scalar type)⟩)
    (htype : ∀ left : Leftover, (left.scalar type).type = type) (hname : Carried name) (h : Serves sv a) (size : Nat) :
    Delivers link a (· = a.get name type size)
      (clnt_check (.ok ∘ .scalar) (clnt_get qsort link proc (xdr_result x) sv name)) := by
  refine (get_delivers hproc (fun left => scalar_answers hx hget (htype left)) hname h).check fun e he => ?_
  rw [← he size]
  cases e <;> rfl

/-- A result that is refused is not looked at. -/
theorem refuse_bind {α β : Type} {c : Prop} [Decidable c] {r : Status} {v : α} (f : α → Except Status β) :
    (if c then Except.error r else .ok v).bind f = if c then .error r else f v := by
  split <;> rfl

theorem getter_delivers (hname : Carried name) (h : Serves sv a) (size : Nat) (type : NR_REG_TYPE) :
    Delivers link a (· = a.get name type size) (remote_getter qsort link sv name size type) := by
  cases type with
  | CHAR => exact scalar_delivers char_scalars (fun _ _ _ => rfl) (fun _ => rfl) (fun left => left.scalar_type (._char 0)) hname h size
  | UCHAR =>
    exact scalar_delivers u_char_scalars (fun _ _ _ => rfl) (fun _ => rfl) (fun left => left.scalar_type (._uchar 0)) hname h size
  | INT2 =>
    exact scalar_delivers int16_scalars (fun _ _ _ => rfl) (fun _ => rfl) (fun left => left.scalar_type (._nr_int2 0)) hname h size
  | UINT2 =>
    exact scalar_delivers u_int16_scalars (fun _ _ _ => rfl) (fun _ => rfl) (fun left => left.scalar_type (._nr_uint2 0)) hname h size
  | INT4 =>
    exact scalar_delivers int32_scalars (fun _ _ _ => rfl) (fun _ => rfl) (fun left => left.scalar_type (._nr_int4 0)) hname h size
  | UINT4 =>
    exact scalar_delivers u_int32_scalars (fun _ _ _ => rfl) (fun _ => rfl) (fun left => left.scalar_type (._nr_uint4 0)) hname h size
  | INT8 =>
    exact scalar_delivers int64_scalars (fun _ _ _ => rfl) (fun _ => rfl) (fun left => left.scalar_type (._nr_int8 0)) hname h size
  | UINT8 =>
    exact scalar_delivers u_int64_scalars (fun _ _ _ => rfl) (fun _ => rfl) (fun left => left.scalar_type (._nr_uint8 0)) hname h size
  | DOUBLE =>
    exact scalar_delivers double_scalars (fun _ _ _ => rfl) (fun _ => rfl) (fun left => left.scalar_type (._double 0)) hname h size
  | REGISTRY =>
    have hregistry : Delivers link a (fun x => (x.bind fun _ => .ok .registry) = a.get name .REGISTRY size)
        (nr_reg_get_registry_1_clnt qsort link sv name) :=
      (get_delivers (fun _ => rfl) (fun _ => registry_answers hname) hname h).check fun e he => by
        rw [← he size]
        cases e with
        | error r => rfl
        | ok out => exact refuse_bind _
    exact hregistry.check fun _ he => he
  | BYTES =>
    have hbytes : Delivers link a (fun x => x.bind (.ok ∘ .array false) = a.get name .BYTES size)
        (nr_reg_get_bytes_1_clnt qsort link sv name size) :=
      (get_delivers (fun _ => rfl) (fun _ => bytes_answers) hname h).check fun e he => by
        rw [← he size]
        cases e with
        | error r => rfl
        | ok out => exact refuse_bind _
    exact hbytes.check fun _ he => he
  | STRING =>
    have hstring : Delivers link a (fun x => x.bind (.ok ∘ .array true) = a.get name .STRING size)
        (nr_reg_get_string_1_clnt qsort link sv name size) :=
      (get_delivers (fun _ => rfl) (fun _ => string_answers) hname h).check fun e he => by
        rw [← he size]
        cases e with
        | error r => rfl
        | ok out => exact refuse_bind _
    exact hstring.check fun _ he => he

/-! ### Changes -/

theorem trunc_length (b : Bytes) : (trunc b).length < 2 ^ 32 :=
  Nat.lt_of_le_of_lt (List.length_take_le _ _) (Nat.mod_lt _ (Nat.two_pow_pos 32))

/-- What is sent of the bytes is what is stored of them. -/
theorem set_trunc (a : Store) (name b : Bytes) : a.set name (.bytes (trunc b)) = a.set name (.bytes b) := by
  have hw : ∀ old, Arg.written old (.bytes (trunc b)) = Arg.written old (.bytes b) := fun old => by
    rw [Arg.written, Arg.written, trunc_eq_self.2 (trunc_length b)]
  by_cases hv : nr_reg_is_valid name = .ok
  · by_cases hc : (∀ v, a.value ⟨name, hv⟩ = some v → v.type = (Arg.bytes b).type) ∧
        a.CanWrite ⟨name, hv⟩ (Arg.written (a.value ⟨name, hv⟩) (.bytes b))
    · have hc' : (∀ v, a.value ⟨name, hv⟩ = some v → v.type = (Arg.bytes (trunc b)).type) ∧
          a.CanWrite ⟨name, hv⟩ (Arg.written (a.value ⟨name, hv⟩) (.bytes (trunc b))) := ⟨hc.1, by rw [hw]; exact hc.2⟩
      rw [Store.set, dif_pos hv, dif_pos hc', Store.set, dif_pos hv, dif_pos hc]
      simp only [hw]
    · rw [Store.set, dif_pos hv, dif_neg fun hc' => hc ⟨hc'.1, by rw [← hw]; exact hc'.2⟩, Store.set, dif_pos hv, dif_neg hc]
  · rw [Store.set, dif_neg hv, Store.set, dif_neg hv]

theorem set_effects {arg : Arg} (hname : Carried name) (harg : CarriedArg arg) (h : Serves sv a)
    (hadm : a.Admits (.set name arg)) : Effects link a (Store.set · name arg) (remote_set qsort link sv name arg) := by
  have hagain : ∀ a : Store, (a.set name arg).2.set name arg = a.set name arg := fun a => a.set_again name arg
  cases arg with
  | scalar d =>
    have hch : Changes (Store.Admits · (.set name (.scalar d))) (Store.set · name (.scalar d))
        (svc_change fun s (x : Bytes × Arg) => Registry.set idle s x.1 x.2) (name, .scalar d) := svc_set_changes harg
    cases d with
    | _char v => exact change_effects (fun _ => rfl) ⟨hname, char_scalars _ rfl⟩ hch hagain h hadm
    | _uchar v => exact change_effects (fun _ => rfl) ⟨hname, u_char_scalars _ rfl⟩ hch hagain h hadm
    | _nr_int2 v => exact change_effects (fun _ => rfl) ⟨hname, int16_scalars _ rfl⟩ hch hagain h hadm
    | _nr_uint2 v => exact change_effects (fun _ => rfl) ⟨hname, u_int16_scalars _ rfl⟩ hch hagain h hadm
    | _nr_int4 v => exact change_effects (fun _ => rfl) ⟨hname, int32_scalars _ rfl⟩ hch hagain h hadm
    | _nr_uint4 v => exact change_effects (fun _ => rfl) ⟨hname, u_int32_scalars _ rfl⟩ hch hagain h hadm
    | _nr_int8 v => exact change_effects (fun _ => rfl) ⟨hname, int64_scalars _ rfl⟩ hch hagain h hadm
    | _nr_uint8 v => exact change_effects (fun _ => rfl) ⟨hname, u_int64_scalars _ rfl⟩ hch hagain h hadm
    | _double v => exact change_effects (fun _ => rfl) ⟨hname, double_scalars _ rfl⟩ hch hagain h hadm
  | registry => exact change_effects (fun _ => rfl) hname (svc_set_changes harg) hagain h hadm
  | bytes b =>
    have hsent : (Store.set · name (.bytes (trunc b))) = (Store.set · name (.bytes b)) := funext fun a => set_trunc a name b
    rw [← hsent]
    have hsend : CarriedArg (.bytes (trunc b)) := trivial
    exact change_effects (fun _ => rfl) ⟨hname, trunc_length b⟩ (svc_set_changes hsend) (fun a => a.set_again name _) h hadm
  | string b => exact change_effects (fun _ => rfl) ⟨hname, harg⟩ (svc_set_changes harg) hagain h hadm

/-! ### Every call -/

theorem Delivers.does {α : Type} {P : Except Status α → Prop} {o : Option (Except Status α × Svc)} (h : Delivers link a P o)
    {c : Call} {ans : Except Status α → Answer} (hP : ∀ x, P x → a.DoesRemotely c (ans x) a)
    (hans : ∀ x, NoAnswer x → (ans x).NotServed) :
    ∃ sv' a' r, (o.map fun x => (ans x.1, x.2)) = some (r, sv') ∧ Serves sv' a' ∧ a.DoesOver (link, c) r a' := by
  obtain ⟨x, sv', rfl, h', hor⟩ := h
  refine ⟨sv', a, ans x, rfl, h', hor.imp (hP x) ?_⟩
  rintro ⟨hno, hx⟩
  exact ⟨hno, hans x hx, .inl rfl⟩

theorem Effects.does {op : Store → Status × Store} {o : Option (Status × Svc)} (h : Effects link a op o) {c : Call}
    (hop : ∀ r a', a.DoesRemotely c (.status r) a' ↔ r = (op a).1 ∧ a' = (op a).2) :
    ∃ sv' a' r, (o.map fun x => (Answer.status x.1, x.2)) = some (r, sv') ∧ Serves sv' a' ∧ a.DoesOver (link, c) r a' := by
  obtain ⟨r, sv', a', rfl, h', hor⟩ := h
  refine ⟨sv', a', .status r, rfl, h', hor.imp (hop r a').2 ?_⟩
  rintro ⟨hno, hr, hdone⟩
  exact ⟨hno, hr, hdone.imp_right fun ha => ⟨_, (hop _ _).2 ⟨rfl, ha⟩⟩⟩

theorem remote_step (hsort : Bytewise.Sorts qsort) (link : Link) (h : Serves sv a) {c : Call} (hc : Sendable sv.reg c) :
    ∃ sv' a' ans, remote qsort link sv c = some (ans, sv') ∧ Serves sv' a' ∧ a.DoesOver (link, c) ans a' := by
  cases c with
  | set name arg =>
    obtain ⟨hname, harg, hs⟩ := hc
    have hadm : a.Admits (.set name arg) := (h.reg.proper_iff _).1 hs
    exact (set_effects hname harg h hadm).does fun r a' => by simp [Store.DoesRemotely, Store.Does]
  | del name =>
    have heff : Effects link a (Store.del · name) (nr_reg_del_1_clnt qsort link sv name) :=
      change_effects (fun _ => rfl) hc svc_del_changes (fun a => a.del_again name) h trivial
    exact heff.does fun r a' => by simp [Store.DoesRemotely, Store.Does]
  | fin name =>
    have heff : Effects link a (fun a => (Status.ok, a)) (nr_reg_fin_1_clnt qsort link sv name) :=
      change_effects (fun _ => rfl) hc svc_fin_changes (fun _ => rfl) h trivial
    exact heff.does fun r a' => by simp [Store.DoesRemotely, Store.Does]
  | get name type size =>
    refine (getter_delivers hc h size type).does (fun x hx => ?_) fun _ hx => hx
    exact ⟨by rw [hx], rfl⟩
  | get_length name =>
    have hlen : Delivers link a (· = (a.lookup name).map (Store.lengthOf name)) (nr_reg_get_length_1_clnt qsort link sv name) :=
      (get_delivers (fun _ => rfl) (fun _ => length_answers) hc h).check fun _ he => he
    refine hlen.does (fun x hx => ?_) fun _ hx => hx
    exact ⟨by rw [hx], rfl⟩
  | get_type name =>
    have htype : Delivers link a (· = (a.lookup name).map fun v => nr_reg_type_name v.type)
        (nr_reg_get_type_1_clnt qsort link sv name) :=
      (get_delivers (fun _ => rfl) (fun _ => type_answers) hc h).check fun e he => by
        rw [← he]
        cases e <;> rfl
    refine htype.does (fun x hx => ?_) fun _ hx => hx
    exact ⟨by rw [hx], rfl⟩
  | get_child_count name =>
    have hcount : Delivers link a (fun x => ∃ l, a.Lists (fun n => if name = [] then n ≠ [] else Child name n) l ∧
        x = (a.lookup name).bind fun v => if v = .registry then .ok (UInt32.ofNat l.length) else .error .R_FAILED)
        (nr_reg_get_child_count_1_clnt qsort link sv name) :=
      (get_delivers (fun _ => rfl) (fun _ => child_count_answers) hc h).check fun _ he => he
    refine hcount.does (fun x hx => ?_) fun _ hx => hx
    obtain ⟨l, hl, hcount⟩ := hx
    exact ⟨rfl, l, hl, by rw [hcount]⟩
  | get_children name size =>
    obtain ⟨hname, hroom⟩ := hc
    have hkids : Delivers link a (fun x => ∃ l, a.Lists (Child name) l ∧ l.Pairwise caseLe ∧
        x = if nr_reg_is_valid name ≠ .ok then .error .R_BAD_ARGS else if l.length ≤ size then .ok l else .error .R_BAD_ARGS)
        (nr_reg_get_children_1_clnt qsort link sv name size) := by
      refine (get_delivers (fun _ => rfl) (fun _ => children_answers hsort h.reg hroom) hname h).check ?_
      rintro e ⟨l, hl, hord, rfl⟩
      refine ⟨l, hl, hord, ?_⟩
      by_cases hv : nr_reg_is_valid name ≠ .ok
      · rw [if_pos hv, if_pos hv]
        rfl
      · -- the names are short, so all of each is copied
        have hcopy : l.map (fun n => n.take (NR_REG_MAX_NR_REGISTRY_LEN - 1)) = l := by
          refine (List.map_congr_left fun n hn => ?_).trans (List.map_id l)
          exact List.take_of_length_le (Nat.le_of_lt (hroom.2 n ((h.reg.children_perm.1 hl).mem_iff.1 hn)))
        rw [if_neg hv, if_neg hv]
        dsimp only [Except.bind]
        rw [hcopy]
        by_cases hle : l.length ≤ size
        · rw [if_neg (Nat.not_lt.2 hle), if_pos hle]
        · rw [if_pos (Nat.lt_of_not_le hle), if_neg hle]
    refine hkids.does (fun x hx => ?_) fun _ hx => hx
    obtain ⟨l, hl, hord, rfl⟩ := hx
    exact ⟨rfl, l, hl, hord, rfl⟩

end

/-! ## Runs -/

/-- A server that was just started. -/
def Svc.Started (sv : Svc) : Prop :=
  nr_reg_local_init idle = some (.ok, sv.reg) ∧ sv.bytes = {} ∧ sv.string = {} ∧ sv.children = {}

/-- A call over a link. -/
def request (qsort : List Bytewise.NR_registry → List Bytewise.NR_registry) (sv : Svc) (x : Link × Call) : Option (Answer × Svc) :=
  remote qsort x.1 sv x.2

theorem started_serves {sv : Svc} (h : sv.Started) : Serves sv Hierarchy.empty := by
  obtain ⟨hi, hb, hs, hc⟩ := h
  have hfresh : ({} : Static).Ok := by rintro _ ⟨⟩
  refine ⟨init_refines hi, hb ▸ hfresh, hs ▸ hfresh, hc ▸ Bytewise.started_ok, fun n content hn => ?_⟩
  rw [Hierarchy.empty] at hn
  dsimp only at hn
  split at hn <;> cases hn

/-- In every run of calls, over links that lose any of their messages, each call
is done once and returns what it found, or it returns without an answer and was
done once or not at all; and each call returns. -/
theorem remote_refines {qsort : List Bytewise.NR_registry → List Bytewise.NR_registry} (hsort : Bytewise.Sorts qsort)
    {sv₀ sv : Svc} (h₀ : sv₀.Started) {evs : List ((Link × Call) × Answer)}
    (hrun : Run (request qsort) (fun sv x => Sendable sv.reg x.2) sv₀ evs sv) :
    ∃ a, SpecRun Store.DoesOver Hierarchy.empty evs a ∧ (∀ n : Name, sv.reg.map n.bytes = (a.value n).map some) ∧
      ∀ x : Link × Call, Sendable sv.reg x.2 → ∃ ans sv', request qsort sv x = some (ans, sv') := by
  have hstep : ∀ sv a (x : Link × Call) ans sv', Serves sv a → Sendable sv.reg x.2 → request qsort sv x = some (ans, sv') →
      ∃ a', Store.DoesOver a x ans a' ∧ Serves sv' a' := by
    intro sv a x ans sv' h hx hst
    obtain ⟨sv₁, a', ans₁, hst₁, h', hdoes⟩ := remote_step hsort x.1 h hx
    have hst' : remote qsort x.1 sv x.2 = some (ans, sv') := hst
    rw [hst₁] at hst'
    cases hst'
    exact ⟨a', hdoes, h'⟩
  obtain ⟨a, hspec, h⟩ := hrun.refines Serves (started_serves h₀) hstep
  refine ⟨a, hspec, h.reg.value, fun x hx => ?_⟩
  obtain ⟨sv', -, ans, hst, -⟩ := remote_step hsort x.1 h hx
  exact ⟨ans, sv', hst⟩

/-- Memory that holds zeros. -/
def zeros : Leftover where
  scalar
    | .CHAR => ._char 0
    | .UCHAR => ._uchar 0
    | .INT2 => ._nr_int2 0
    | .UINT2 => ._nr_uint2 0
    | .INT4 => ._nr_int4 0
    | .UINT4 => ._nr_uint4 0
    | .INT8 => ._nr_int8 0
    | .UINT8 => ._nr_uint8 0
    | .DOUBLE | .BYTES | .STRING | .REGISTRY => ._double 0
  scalar_type v := by cases v <;> rfl
  word := 0
  bytes := []
  bytes_carried := Nat.two_pow_pos 32
  string := []
  string_carried := ⟨List.not_mem_nil, Nat.one_lt_two_pow (by decide)⟩
  strings := []
  strings_carried := ⟨Nat.two_pow_pos 32, by simp⟩
  fresh _ _ := Bytewise.NR_registry.zeroed
  registered := .ok

/-- The first request is lost, and the answer to the second. -/
def thirdTime : Link where
  fate tries := [Fate.lost, .unanswered, .answered].getD tries .answered
  left _ := zeros

/-- A string that is set in the third attempt, after a second that was served,
is read and listed, and a call without a connection is not done. -/
theorem remote_refines_third_time : ∃ (sv₀ sv : Svc) (evs : List ((Link × Call) × Answer)) (a : Store), sv₀.Started ∧
    Run (request Bytewise.sortTexts) (fun sv x => Sendable sv.reg x.2) sv₀ evs sv ∧
    evs.map (fun e => e.1.2) = [.set (str "a.b") (.string (str "x")), .get (str "a.b") .STRING 2, .get_children (str "a") 1,
      .del (str "a")] ∧
    SpecRun Store.DoesOver Hierarchy.empty evs a := by
  have hex : ((nr_reg_local_init idle).any fun x => x.1 = .ok && (exec (request Bytewise.sortTexts) (fun sv x => Sendable sv.reg x.2)
      ⟨⟨x.2, {}, {}⟩, {}⟩ [(thirdTime, .set (str "a.b") (.string (str "x"))), (thirdTime, .get (str "a.b") .STRING 2),
        (thirdTime, .get_children (str "a") 1), (⟨fun _ => .unreachable, fun _ => zeros⟩, .del (str "a"))]).any
      fun y => y.1.length = 4) = true := by decide +kernel
  obtain ⟨⟨r, s₀⟩, hi, hx⟩ := (Option.any_eq_true _ _).1 hex
  simp only [Bool.and_eq_true, decide_eq_true_eq] at hx
  obtain ⟨rfl, hy⟩ := hx
  obtain ⟨⟨answers, sv⟩, hexec, hlen⟩ := (Option.any_eq_true _ _).1 hy
  have hrun : Run (request Bytewise.sortTexts) (fun sv x => Sendable sv.reg x.2) _ _ sv :=
    (Run.exec .nil hexec).mono fun _ _ hp => of_decide_eq_true hp
  have hstart : Svc.Started ⟨⟨s₀, {}, {}⟩, {}⟩ := ⟨hi, rfl, rfl, rfl⟩
  obtain ⟨a, hspec, -⟩ := remote_refines Bytewise.sortTexts_sorts hstart hrun
  refine ⟨_, sv, _, a, hstart, hrun, ?_, hspec⟩
  have hlen' : answers.length = 4 := of_decide_eq_true hlen
  rw [List.nil_append, ← Function.comp_def (fun x : Link × Call => x.2) Prod.fst, ← List.map_map, List.map_fst_zip]
  · rfl
  · exact hlen'.ge

end Nrappkit.Service
