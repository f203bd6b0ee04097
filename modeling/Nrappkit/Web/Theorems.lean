import Nrappkit.Web.Bodies
import Nrappkit.Web.Pages
/-!
# Requests and calls in any order

`web_refines`: the server and the programs that call the registry next to it, in
any order. Each request is answered by what the store holds then, unless it is one
of two kinds that are told by the request and the store: those the handler never
returns from, and those it is not defined for. `get_reads_last_put`: what was put
is what a page says, until it is put again or deleted.
-/
open Lib Nrappkit.Registry Nrappkit.Assoc Nrappkit.Control Nrappkit.Service
open Nrappkit.Registry.Bytewise (NR_registry Sorts)

namespace Nrappkit.Web

variable {env : Env} {s s' : Reg} {a : Store} {name : Bytes} {r : request_rec} {n : Nat}

/-! ## The end of a PUT -/

theorem put_abort_stuck {code : Code} (hok : code ≠ .OK) (hcreated : code ≠ .HTTP_CREATED) (n : Nat) :
    put_abort true n code = .running := by
  induction n generalizing code with
  | zero => rfl
  | succ n ih =>
    rw [put_abort, if_pos ⟨hok, hcreated, rfl⟩]
    exact ih (by decide) (by decide)

/-- An error after the request was found to be in order is never reported. -/
theorem put_end_stuck (rv : Status) (n : Nat) (s : Reg) : put_end true n (.reg rv) s = .running := by
  rw [put_end, put_abort_stuck (by simp) (by simp)]

def created : Response := ⟨.OK, some (.HTTP_CREATED, [])⟩

theorem put_end_ok (n : Nat) (s : Reg) : put_end true (n + 1) .OK s = .returns (created, s) := rfl

/-- The body is there as the request says. -/
def Whole (r : request_rec) : Prop := r.setup = true ∧ r.should = true ∧ r.block.length = r.remaining

instance (r : request_rec) : Decidable (Whole r) := inferInstanceAs (Decidable (_ ∧ _ ∧ _))

theorem put_broken (h : ¬ Whole r) (type : Option NR_REG_TYPE) :
    process_put_request env (n + 1) s r name type = .returns (refused .HTTP_BAD_REQUEST, s) := by
  have hcheck : (!r.setup || !r.should || decide (r.block.length ≠ r.remaining)) = true := by
    by_contra hno
    simp only [Bool.or_eq_true, Bool.not_eq_true', decide_eq_true_eq, not_or, Bool.not_eq_false, not_not] at hno
    exact h ⟨hno.1.1, hno.1.2, hno.2⟩
  rw [process_put_request, if_pos hcheck]
  rfl

theorem put_whole (h : Whole r) (n : Nat) (type : Option NR_REG_TYPE) : process_put_request env n s r name type =
    match type.bind fun type => put_arg env type r.block with
    | none => .undefined
    | some none => .running
    | some (some arg) =>
      match set idle s name arg with
      | none => .undefined
      | some (.ok, s) => put_end true n .OK s
      | some (_, _) => .running := by
  have hcheck : ¬ (!r.setup || !r.should || decide (r.block.length ≠ r.remaining)) = true := by simp [h.1, h.2.1, h.2.2]
  rw [process_put_request, if_neg hcheck]
  cases type.bind fun type => put_arg env type r.block with
  | none => rfl
  | some x =>
    cases x with
    | none => exact put_end_stuck _ _ _
    | some arg =>
      dsimp only
      cases set idle s name arg with
      | none => rfl
      | some x =>
        obtain ⟨rv, s'⟩ := x
        cases rv <;> first | rfl | exact put_end_stuck _ _ _

/-- The store takes the value under the name. -/
def Takes (a : Store) (name : Bytes) (arg : Arg) : Prop := a.Admits (.set name arg) ∧ (a.set name arg).1 = .ok

/-- The setter returns, and returns 0 where the store takes the value. -/
theorem set_outcome (h : Refines s a) (name : Bytes) (arg : Arg) : ∃ rv s', set idle s name arg = some (rv, s') ∧
    (rv = .ok ↔ Takes a name arg) ∧ (rv = .ok → Refines s' (a.set name arg).2) := by
  obtain ⟨rv, s', hst, -⟩ : Returns s.cbs (set idle s name arg) :=
    setter_returns h.sound.1 (h.sound.2.live_nodes.not_read name) (quiet_of_zero h.cbs) arg
  have hproper : rv = .ok → Proper s (.set name arg) := by
    rintro rfl
    have hop : regStep idle s (.set name arg) = some (.ok, s') := hst
    exact safe_of_ok h.sound.1 hop
  refine ⟨rv, s', hst, ⟨fun hok => ⟨(h.proper_iff _).1 (hproper hok), ?_⟩, ?_⟩, fun hok => (h.set (hproper hok) hst).2⟩
  · rw [← (h.set (hproper hok) hst).1, hok]
  · rintro ⟨hadmits, hok⟩
    rw [(h.set ((h.proper_iff _).2 hadmits) hst).1, hok]

/-! ## What is stored -/

theorem texts_empty : Texts Hierarchy.empty := by
  intro n content hn
  rw [Hierarchy.empty] at hn
  dsimp only at hn
  split at hn
  · cases hn
  · cases hn

theorem written_text {arg : Arg} (hclean : Clean arg) {old : Option Value} {content : Bytes}
    (h : arg.written old = .array true content) : ∃ b, 0 ∉ b ∧ content = b ++ [0] := by
  cases arg with
  | scalar d =>
    cases old with
    | none => cases h
    | some v => cases v <;> cases h
  | registry => cases h
  | bytes b => cases h
  | string b =>
    have hlen : (b ++ [0]).length < 2 ^ 32 := by simpa using hclean.2
    have hcontent : trunc (b ++ [0]) = content := by
      injection h
    exact ⟨b, hclean.1, by rw [← hcontent, trunc_eq_self.2 hlen]⟩

theorem texts_set (ht : Texts a) {arg : Arg} (hclean : Clean arg) : Texts (a.set name arg).2 := by
  unfold Store.set
  split
  · rename_i hv
    split
    · rename_i hw
      intro n content hn
      by_cases hself : n = ⟨name, hv⟩
      · subst hself
        rw [Hierarchy.write_self] at hn
        exact written_text hclean (Option.some.inj hn)
      · by_cases hle : n ≤ ⟨name, hv⟩
        · rw [Hierarchy.write_above _ (lt_of_le_of_ne hle hself)] at hn
          cases hn
        · rw [Hierarchy.write_other _ hle] at hn
          exact ht n content hn
    · exact ht
  · exact ht

theorem texts_del (ht : Texts a) : Texts (a.del name).2 := by
  unfold Store.del
  split
  · rename_i hv
    intro n content hn
    by_cases hbot : n = ⊥
    · rw [hbot, Hierarchy.root] at hn
      cases hn
    · by_cases hle : (⟨name, hv⟩ : Name) ≤ n
      · rw [Hierarchy.erase_below hbot hle] at hn
        cases hn
      · rw [Hierarchy.erase_other hbot hle] at hn
        exact ht n content hn
  · exact ht

/-! ## One request -/

/-- The body is there, and yet it does not say a value of the type, or the store
does not take the value. -/
def Hangs (env : Env) (a : Store) (r : request_rec) : Prop :=
  ∃ type x, asks r = some (.ok (.put (some type))) ∧ Whole r ∧ put_arg env type r.block = some x ∧
    ∀ arg, x = some arg → ¬ Takes a (transform_name r.uri) arg

/-- The type is compared though none is given, used though none was read, or the
body is one that cannot be scanned. -/
def Undefined (env : Env) (r : request_rec) : Prop :=
  asks r = none ∨ asks r = some (.ok (.get none)) ∨
    ∃ type, asks r = some (.ok (.put type)) ∧ Whole r ∧ (type.bind fun type => put_arg env type r.block) = none

/-- What a request is answered, and the store behind it. -/
def Responds (env : Env) (a : Store) (r : request_rec) (resp : Response) (a' : Store) : Prop :=
  match asks r with
  | none => False
  | some (.error code) => resp = refused code ∧ a' = a
  | some (.ok .getlength) => resp = lengthPage a r (transform_name r.uri) ∧ a' = a
  | some (.ok .getkeys) => keysPage a r (transform_name r.uri) resp ∧ a' = a
  | some (.ok (.get type)) => (∃ t, type = some t ∧ resp = valuePage env a r (transform_name r.uri) t) ∧ a' = a
  | some (.ok (.put type)) =>
    (¬ Whole r ∧ resp = refused .HTTP_BAD_REQUEST ∧ a' = a) ∨
    ∃ t arg, type = some t ∧ Whole r ∧ put_arg env t r.block = some (some arg) ∧ Takes a (transform_name r.uri) arg ∧
      resp = created ∧ a' = (a.set (transform_name r.uri) arg).2
  | some (.ok .delete) =>
    resp = (if (a.del (transform_name r.uri)).1 = .ok then ⟨.OK, some (.OK, [])⟩ else refused .HTTP_BAD_REQUEST) ∧
      a' = (a.del (transform_name r.uri)).2

/-- The index of a child is an `int`. -/
def Few (s : Reg) (r : request_rec) : Prop :=
  asks r = some (.ok .getkeys) → (child_names s (transform_name r.uri)).length < 2 ^ 31

theorem name_of_asks {ask : Ask} (h : asks r = some (.ok ask)) : transform_name r.uri ≠ [] := by
  intro hname
  rw [asks, if_pos hname] at h
  cases h

theorem handler_hangs (h : Refines s a) (hr : Hangs env a r) (n : Nat) : registry_handler env n s r = .running := by
  obtain ⟨type, x, hask, hwhole, hx, hno⟩ := hr
  rw [handler_asks, hask]
  dsimp only
  rw [put_whole hwhole, Option.bind_some, hx]
  cases x with
  | none => rfl
  | some arg =>
    obtain ⟨rv, s', hst, hiff, -⟩ := set_outcome h (transform_name r.uri) arg
    have hrv : rv ≠ .ok := fun hok => hno arg rfl (hiff.1 hok)
    dsimp only
    rw [hst]
    cases rv <;> first | rfl | exact absurd rfl hrv

theorem handler_undefined (hr : Undefined env r) (n : Nat) : registry_handler env n s r = .undefined := by
  rw [handler_asks]
  rcases hr with hask | hask | ⟨type, hask, hwhole, hx⟩
  · rw [hask]
  · rw [hask]
    rfl
  · rw [hask]
    dsimp only
    rw [put_whole hwhole, hx]

/-- Every other request is answered, and a second pass of the label makes no
difference. -/
theorem handler_answers (h : Refines s a) (ht : Texts a) (hfew : Few s r) (hh : ¬ Hangs env a r) (hu : ¬ Undefined env r) :
    ∃ resp s' a', (∀ n, registry_handler env (n + 1) s r = .returns (resp, s')) ∧ Responds env a r resp a' ∧
      Refines s' a' ∧ Texts a' := by
  simp only [handler_asks, Responds]
  cases hask : asks r with
  | none => exact absurd (.inl hask) hu
  | some x =>
    cases x with
    | error code => exact ⟨_, s, a, fun _ => rfl, ⟨rfl, rfl⟩, h, ht⟩
    | ok ask =>
      have hne := name_of_asks hask
      cases ask with
      | getlength =>
        dsimp only
        rw [getlength_page h]
        exact ⟨_, s, a, fun _ => rfl, ⟨rfl, rfl⟩, h, ht⟩
      | getkeys =>
        obtain ⟨resp, hpage, hkeys⟩ := getkeys_page env (r := r) h hne (hfew hask)
        dsimp only
        rw [hpage]
        exact ⟨_, s, a, fun _ => rfl, ⟨hkeys, rfl⟩, h, ht⟩
      | get type =>
        cases type with
        | none => exact absurd (.inr (.inl hask)) hu
        | some t =>
          dsimp only
          rw [get_page h ht]
          exact ⟨_, s, a, fun _ => rfl, ⟨⟨t, rfl, rfl⟩, rfl⟩, h, ht⟩
      | put type =>
        dsimp only
        by_cases hwhole : Whole r
        · have hdef : (type.bind fun type => put_arg env type r.block) ≠ none := fun hnone =>
            hu (.inr (.inr ⟨type, hask, hwhole, hnone⟩))
          obtain ⟨x, hbind⟩ := Option.ne_none_iff_exists'.1 hdef
          obtain ⟨t, rfl, hx⟩ := Option.bind_eq_some_iff.1 hbind
          obtain ⟨arg, rfl, htakes⟩ : ∃ arg, x = some arg ∧ Takes a (transform_name r.uri) arg := by
            by_contra hno
            exact hh ⟨t, x, hask, hwhole, hx, fun arg harg htakes => hno ⟨arg, harg, htakes⟩⟩
          obtain ⟨rv, s', hst, hiff, href⟩ := set_outcome h (transform_name r.uri) arg
          obtain rfl := hiff.2 htakes
          have hclean : Clean arg := (put_arg_type hx).2 (by rw [hwhole.2.2]; exact r.small)
          refine ⟨created, s', _, fun n => ?_, .inr ⟨t, arg, rfl, hwhole, hx, htakes, rfl, rfl⟩, href rfl, texts_set ht hclean⟩
          rw [put_whole hwhole]
          rw [Option.bind_some, hx]
          dsimp only
          rw [hst]
          exact put_end_ok n s'
        · exact ⟨_, s, a, fun n => put_broken hwhole type, .inl ⟨hwhole, rfl, rfl⟩, h, ht⟩
      | delete =>
        obtain ⟨r', s', hdel, -⟩ : Returns s.cbs (nr_reg_local_del idle s (transform_name r.uri)) :=
          del_returns h.sound.1 h.sound.2.live_nodes (quiet_of_zero h.cbs)
        obtain ⟨hr', href⟩ := h.del hdel
        refine ⟨_, s', _, fun _ => ?_, ⟨rfl, rfl⟩, href, texts_del ht⟩
        dsimp only
        rw [process_delete_request, hdel, ← hr']
        cases r' <;> rfl

/-! ## Requests and calls -/

/-- Programs call the registry while the server answers requests. -/
inductive Input where
  | call (c : Call)
  | request (r : request_rec)

inductive Output where
  | answer (ans : Answer)
  | response (resp : Response)

def step (env : Env) (s : Reg) : Input → Option (Output × Reg)
  | .call c => (call s c).map fun x => (.answer x.1, x.2)
  | .request r => match registry_handler env 1 s r with
    | .returns (resp, s) => some (.response resp, s)
    | _ => none

def CleanCall : Call → Prop
  | .set _ arg => Clean arg
  | _ => True

def Allowed (s : Reg) : Input → Prop
  | .call c => Proper s c ∧ CleanCall c
  | .request r => Few s r

def Does (env : Env) (a : Store) : Input → Output → Store → Prop
  | .call c, .answer ans, a' => a.Does c ans a'
  | .request r, .response resp, a' => Responds env a r resp a'
  | _, _, _ => False

/-- The registry holds what the store does, and no string without its end. -/
structure Holds (s : Reg) (a : Store) : Prop where
  refines : Refines s a
  texts : Texts a

theorem Holds.call (h : Holds s a) {c : Call} (hp : Proper s c) (hc : CleanCall c) {ans : Answer}
    (hst : Service.call s c = some (ans, s')) : ∃ a', a.Does c ans a' ∧ Holds s' a' := by
  obtain ⟨a', hdoes, href⟩ := h.refines.step hp hst
  refine ⟨a', hdoes, href, ?_⟩
  cases c with
  | set name arg =>
    rw [hdoes.2]
    exact texts_set h.texts hc
  | del name =>
    rw [hdoes.2]
    exact texts_del h.texts
  | fin name | get name type size | get_length name | get_type name =>
    rw [hdoes.2]
    exact h.texts
  | get_child_count name | get_children name size =>
    rw [hdoes.1]
    exact h.texts

/-- A request that is answered is answered by what the store holds. -/
theorem Holds.request (h : Holds s a) (hfew : Few s r) {resp : Response}
    (hret : registry_handler env (n + 1) s r = .returns (resp, s')) : ∃ a', Responds env a r resp a' ∧ Holds s' a' := by
  have hh : ¬ Hangs env a r := by
    intro hr
    rw [handler_hangs h.refines hr] at hret
    cases hret
  have hu : ¬ Undefined env r := by
    intro hr
    rw [handler_undefined hr] at hret
    cases hret
  obtain ⟨resp₁, s₁, a', hans, hresp, href, ht⟩ := handler_answers h.refines h.texts hfew hh hu
  rw [hans n] at hret
  cases hret
  exact ⟨a', hresp, href, ht⟩

theorem Holds.step (h : Holds s a) {i : Input} (hi : Allowed s i) {o : Output} (hst : step env s i = some (o, s')) :
    ∃ a', Does env a i o a' ∧ Holds s' a' := by
  cases i with
  | call c =>
    obtain ⟨⟨ans, s₁⟩, hcall, heq⟩ := Option.map_eq_some_iff.1 hst
    cases heq
    exact h.call hi.1 hi.2 hcall
  | request r =>
    rw [Web.step] at hst
    split at hst
    · rename_i resp s₁ hret
      cases hst
      exact h.request hi hret
    · cases hst

theorem init_holds {s₀ : Reg} (hi : nr_reg_local_init idle = some (.ok, s₀)) : Holds s₀ Hierarchy.empty :=
  ⟨init_refines hi, texts_empty⟩

/-- In every run of requests that are answered and calls that strand no node, in any
order, each is answered from one store. There every further request is of three
kinds: the handler does not return, or is not defined, or answers. -/
theorem web_refines {s₀ : Reg} (hi : nr_reg_local_init idle = some (.ok, s₀)) {evs : List (Input × Output)}
    (hrun : Run (step env) Allowed s₀ evs s) :
    ∃ a, SpecRun (Does env) Hierarchy.empty evs a ∧ (∀ n : Name, s.map n.bytes = (a.value n).map some) ∧
      ∀ r, (Hangs env a r → ∀ n, registry_handler env n s r = .running) ∧
        (Undefined env r → ∀ n, registry_handler env n s r = .undefined) ∧
        (Few s r → ¬ Hangs env a r → ¬ Undefined env r → ∃ o s', step env s (.request r) = some (o, s')) := by
  have hstep : ∀ s a i o s', Holds s a → Allowed s i → step env s i = some (o, s') →
      ∃ a', Does env a i o a' ∧ Holds s' a' := fun _ _ _ _ _ h hi hst => h.step hi hst
  obtain ⟨a, hspec, h⟩ := hrun.refines Holds (init_holds hi) hstep
  refine ⟨a, hspec, h.refines.value, fun r => ⟨handler_hangs h.refines, handler_undefined, fun hfew hh hu => ?_⟩⟩
  obtain ⟨resp, s', a', hans, -⟩ := handler_answers h.refines h.texts hfew hh hu
  exact ⟨.response resp, s', by rw [step, hans 0]⟩

/-- Doubles are neither printed nor scanned. -/
def plain : Env where
  printDouble _ := []
  scanDouble _ := none
  scanf _ := true
  qsort := Bytewise.sortTexts
  sorts := Bytewise.sortTexts_sorts
  child := NR_registry.zeroed

/-- A request for `/a/b?type=INT4`, with a body if it is a `PUT`. -/
def requestOf (method : Method) (block : Bytes) (h : block.length + 1 < 2 ^ 31) : request_rec where
  method_number := method
  header_only := false
  uri := str "/a/b"
  args := some (str "type=INT4")
  setup := true
  should := 0 < block.length
  remaining := block.length
  more := of_decide_eq_true
  small := h
  block := block
  read := Nat.le_refl _

/-- A check of what is allowed, without requests for keys. -/
def inOrder (s : Reg) : Input → Bool
  | .call c => decide (Proper s c) && match c with
    | .set _ (.string b) => decide (0 ∉ b ∧ b.length + 1 < 2 ^ 32)
    | _ => true
  | .request r => match asks r with
    | some (.ok .getkeys) => false
    | _ => true

theorem inOrder_allowed (s : Reg) (i : Input) (h : inOrder s i = true) : Allowed s i := by
  cases i with
  | call c =>
    obtain ⟨hp, hc⟩ := Bool.and_eq_true_iff.1 h
    refine ⟨of_decide_eq_true hp, ?_⟩
    cases c with
    | set name arg =>
      cases arg with
      | string b =>
        have hclean : 0 ∉ b ∧ b.length + 1 < 2 ^ 32 := of_decide_eq_true hc
        exact hclean
      | _ => trivial
    | _ => trivial
  | request r =>
    intro hask
    rw [inOrder, hask] at h
    cases h

/-- A value that was put next to one that was set; and a body that is no number is
put for ever. -/
theorem web_refines_two : ∃ s₀ s evs a, nr_reg_local_init idle = some (.ok, s₀) ∧ Run (step plain) Allowed s₀ evs s ∧
    evs.map Prod.fst = [.call (.set (str "a.c") (.string (str "x"))), .request (requestOf .M_PUT (str "7") (by decide))] ∧
    SpecRun (Does plain) Hierarchy.empty evs a ∧
    ∀ n, registry_handler plain n s (requestOf .M_PUT (str "x") (by decide)) = .running := by
  have hex : ((nr_reg_local_init idle).any fun x => decide (x.1 = .ok) && (exec (step plain) inOrder x.2
      [.call (.set (str "a.c") (.string (str "x"))), .request (requestOf .M_PUT (str "7") (by decide))]).any fun y =>
        decide (y.1.length = 2)) = true := by decide +kernel
  obtain ⟨⟨r, s₀⟩, hi, hx⟩ := (Option.any_eq_true _ _).1 hex
  obtain ⟨hr, hx⟩ := Bool.and_eq_true_iff.1 hx
  obtain rfl : r = .ok := of_decide_eq_true hr
  obtain ⟨⟨outs, s⟩, hexec, hlen⟩ := (Option.any_eq_true _ _).1 hx
  have hrun := (Run.exec .nil hexec).mono inOrder_allowed
  obtain ⟨a, hspec, -, hnext⟩ := web_refines hi hrun
  refine ⟨s₀, s, _, a, hi, hrun, ?_, hspec, (hnext _).1 ?_⟩
  · rw [List.nil_append, List.map_fst_zip]
    exact (of_decide_eq_true hlen : outs.length = 2).ge
  · exact ⟨.INT4, none, rfl, ⟨rfl, rfl, rfl⟩, rfl, fun arg harg => (by cases harg)⟩

end Nrappkit.Web
