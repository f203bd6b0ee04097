import Nrappkit.Web.Theorems
/-!
# What was put is what a page says

A value that a `PUT` stored stays under its key until it is put or set again, or
something above it is deleted; until then its page says it, and the text of the
page, put again, changes nothing.
-/
open Lib Nrappkit.Registry Nrappkit.Assoc Nrappkit.Control Nrappkit.Service

namespace Nrappkit.Web

variable {env : Env} {s s' : Reg} {a a' : Store} {name : Bytes} {r : request_rec} {n : Nat}

/-! ## Questions about one key -/

def Ask.method : Ask → Method
  | .put _ => .M_PUT
  | .delete => .M_DELETE
  | _ => .M_GET

theorem method_of_asks {ask : Ask} (h : asks r = some (.ok ask)) : r.method_number = ask.method := by
  unfold asks at h
  split at h
  · cases h
  split at h
  · rename_i hdel
    split at h
    · cases h
    · cases h
      exact hdel
  rename_i hdel
  split at h
  · cases h
  split at h
  · cases h
  rename_i hother
  obtain ⟨x, -, hx⟩ := Option.map_eq_some_iff.1 h
  cases x with
  | error code => cases hx
  | ok type =>
    simp only [Except.map, Except.ok.injEq] at hx
    subst hx
    cases hm : r.method_number with
    | M_GET =>
      rw [if_neg (by decide)]
      split
      · rfl
      · split <;> rfl
    | M_PUT => rfl
    | M_DELETE => exact absurd hm hdel
    | other => exact absurd hm hother

theorem error_of_asks {code : Code} (h : asks r = some (.error code)) : code ≠ .OK := by
  unfold asks at h
  split at h
  · cases h
    decide
  split at h
  · split at h
    · cases h
      decide
    · cases h
  split at h
  · cases h
    decide
  split at h
  · cases h
    decide
  obtain ⟨x, hx, hmapped⟩ := Option.map_eq_some_iff.1 h
  cases x with
  | ok type => cases hmapped
  | error code =>
    cases hmapped
    unfold query_type at hx
    split at hx
    · obtain ⟨value, -, hvalue⟩ := Option.map_eq_some_iff.1 hx
      split at hvalue
      · cases hvalue
        decide
      · cases hvalue
    · split at hx
      · cases hx
      · cases hx
        decide

theorem query_of_type {qs_param : Bytes} {qs_value : Option Bytes} {type : NR_REG_TYPE}
    (h : query_type qs_param qs_value = some (.ok (some type))) : qs_param = str "type" := by
  unfold query_type at h
  split at h
  · assumption
  · split at h <;> cases h

/-- The page of what was put has the same path and query. -/
theorem asks_page {put get : request_rec} {type : NR_REG_TYPE} (h : asks put = some (.ok (.put (some type))))
    (hget : get.method_number = .M_GET) (huri : get.uri = put.uri) (hargs : get.args = put.args) :
    asks get = some (.ok (.get (some type))) := by
  have hput : put.method_number = .M_PUT := method_of_asks h
  unfold asks at h ⊢
  rw [hput] at h
  rw [huri, hargs, hget]
  split at h
  · cases h
  rename_i hname
  rw [if_neg hname, if_neg (by decide)]
  rw [if_neg (by decide)] at h
  cases hq : put.args.map parse_query_string with
  | none =>
    rw [hq] at h
    cases h
  | some q =>
    obtain ⟨qs_param, qs_value⟩ := q
    rw [hq] at h
    dsimp only at h ⊢
    rw [if_neg (by decide)] at h ⊢
    obtain ⟨x, hx, hmapped⟩ := Option.map_eq_some_iff.1 h
    cases x with
    | error code => cases hmapped
    | ok t =>
      obtain rfl : t = some type := by
        simpa [Except.map] using hmapped
      obtain rfl := query_of_type hx
      rw [hx]
      rfl

theorem asks_again {put again : request_rec} (hm : again.method_number = put.method_number) (huri : again.uri = put.uri)
    (hargs : again.args = put.args) : asks again = asks put := by
  unfold asks
  rw [hm, huri, hargs]

/-! ## What stays -/

/-- What is stored under the key is not touched. -/
def Spares (key : Bytes) : Input × Output → Prop
  | (.call (.set name _), .answer ans) => ans = .status .ok → name ≠ key
  | (.call (.del name), _) => covers name key = false
  | (.request r, .response resp) => resp.code = .OK → (r.method_number = .M_PUT → transform_name r.uri ≠ key) ∧
      (r.method_number = .M_DELETE → covers (transform_name r.uri) key = false)
  | _ => True

section
variable {k : Name} {v : Value}

theorem set_other (hk : a.value k = some v) {arg : Arg} (h : (a.set name arg).1 = .ok → name ≠ k.bytes) :
    (a.set name arg).2.value k = some v := by
  unfold Store.set at h ⊢
  split
  · rename_i hv
    rw [dif_pos hv] at h
    split
    · rename_i hw
      rw [dif_pos hw] at h
      have hne : k ≠ ⟨name, hv⟩ := by
        rintro rfl
        exact h rfl rfl
      by_cases hle : k ≤ ⟨name, hv⟩
      · have hlt := lt_of_le_of_ne hle hne
        rw [Hierarchy.write_above _ hlt]
        rcases hw.2.above k hlt with hnone | hdir
        · rw [hk] at hnone
          cases hnone
        · rw [← hdir, hk]
      · rw [Hierarchy.write_other _ hle, hk]
    · exact hk
  · exact hk

theorem del_other (hk : a.value k = some v) (hcov : covers name k.bytes = false) : (a.del name).2.value k = some v := by
  unfold Store.del
  split
  · rename_i hv
    have hle : ¬ (⟨name, hv⟩ : Name) ≤ k := by
      rw [Name.le_iff, hcov]
      simp
    by_cases hbot : k = ⊥
    · rw [hbot, Hierarchy.root] at hk ⊢
      exact hk
    · rw [Hierarchy.erase_other hbot hle, hk]
  · exact hk

theorem does_spared {i : Input} {o : Output} (h : Does env a i o a') (hs : Spares k.bytes (i, o)) (hk : a.value k = some v) :
    a'.value k = some v := by
  cases i with
  | call c =>
    cases o with
    | response resp => exact h.elim
    | answer ans =>
      have hdoes : a.Does c ans a' := h
      cases c with
      | set name arg =>
        rw [hdoes.2]
        refine set_other hk fun hok => hs ?_
        rw [hdoes.1, hok]
      | del name =>
        rw [hdoes.2]
        exact del_other hk hs
      | fin name | get name type size | get_length name | get_type name =>
        rw [hdoes.2]
        exact hk
      | get_child_count name | get_children name size =>
        rw [hdoes.1]
        exact hk
  | request r =>
    cases o with
    | answer ans => exact h.elim
    | response resp =>
      have hresp : Responds env a r resp a' := h
      unfold Responds at hresp
      cases hask : asks r with
      | none =>
        rw [hask] at hresp
        exact hresp.elim
      | some x =>
        rw [hask] at hresp
        cases x with
        | error code =>
          rw [hresp.2]
          exact hk
        | ok ask =>
          have hm := method_of_asks hask
          cases ask with
          | getlength | getkeys | get type =>
            rw [hresp.2]
            exact hk
          | put type =>
            rcases hresp with ⟨-, -, rfl⟩ | ⟨t, arg, -, -, -, -, hcreated, rfl⟩
            · exact hk
            · exact set_other hk fun _ => (hs (by rw [hcreated]; rfl)).1 hm
          | delete =>
            rw [hresp.2]
            by_cases hok : (a.del (transform_name r.uri)).1 = .ok
            · exact del_other hk ((hs (by rw [hresp.1, if_pos hok])).2 hm)
            · have hsame : (a.del (transform_name r.uri)).2 = a := by
                unfold Store.del at hok ⊢
                split
                · rename_i hv
                  rw [dif_pos hv] at hok
                  exact absurd rfl hok
                · rfl
              rw [hsame, hk]

/-- What is not touched stays, in every run. -/
theorem kept {s₂ : Reg} {a₂ : Store} (h₂ : Holds s₂ a₂) (hk : a₂.value k = some v) {evs : List (Input × Output)}
    (hrun : Run (step env) Allowed s₂ evs s) (hspares : ∀ e ∈ evs, Spares k.bytes e) :
    ∃ a, Holds s a ∧ a.value k = some v := by
  induction hrun with
  | nil => exact ⟨a₂, h₂, hk⟩
  | snoc _ hi hst ih =>
    obtain ⟨a, h, hka⟩ := ih fun e he => hspares e (List.mem_append_left _ he)
    obtain ⟨a', hdoes, h'⟩ := h.step hi hst
    exact ⟨a', h', does_spared hdoes (hspares _ (List.mem_append_right _ (List.mem_singleton_self _))) hka⟩

end

/-! ## The page -/

/-- The text says the value; of doubles that are equal the one that was there
before may have stayed. -/
def Says (env : Env) (name : Bytes) (arg : Arg) (text : Bytes) : Prop :=
  text = textFor env name arg ∨ ∃ d d', arg = .scalar (._double d) ∧ Scalar.ne (._double d') (._double d) = false ∧
    text = scalarText env (._double d')

/-- Numbers that do not differ are the same, but for doubles. -/
theorem eq_of_not_ne {d d' : Scalar} (hd : d.type ≠ .DOUBLE) (h : d'.ne d = false) : d' = d := by
  have hbne : (d' != d) = false := by cases d <;> cases d' <;> first | exact h | exact absurd rfl hd
  simpa using hbne

theorem zeroed_type (d : Scalar) : d.zeroed.type = d.type := by cases d <;> rfl

/-- What is written for a number is the number, or one that does not differ. -/
theorem written_scalar (d : Scalar) {old : Option Value} (h : ∀ v, old = some v → v.type = d.type) :
    ∃ d', (Arg.scalar d).written old = .scalar d' ∧ d'.type = d.type ∧ (d' = d ∨ d'.ne d = false) := by
  have hcase : ∀ v : Scalar, v.type = d.type → (if v.ne d then d else v).type = d.type ∧
      ((if v.ne d then d else v) = d ∨ (if v.ne d then d else v).ne d = false) := by
    intro v ht
    by_cases hne : v.ne d = true
    · rw [if_pos hne]
      exact ⟨rfl, .inl rfl⟩
    · rw [if_neg hne]
      exact ⟨ht, .inr (Bool.eq_false_iff.2 hne)⟩
  cases old with
  | none => exact ⟨_, rfl, hcase _ (zeroed_type d)⟩
  | some v =>
    cases v with
    | scalar v => exact ⟨_, rfl, hcase v (h _ rfl)⟩
    | registry => exact ⟨_, rfl, hcase _ (zeroed_type d)⟩
    | array string content => exact ⟨_, rfl, hcase _ (zeroed_type d)⟩

theorem says_written (env : Env) (name : Bytes) {arg : Arg} (hclean : Clean arg) (hbytes : arg.type ≠ .BYTES) {old : Option Value}
    (h : ∀ v, old = some v → v.type = arg.type) : Says env name arg (shown env name (arg.written old)) := by
  cases arg with
  | scalar d =>
    obtain ⟨d', hw, ht, heq | hne⟩ := written_scalar d h
    · rw [hw, heq]
      exact .inl rfl
    · rw [hw]
      by_cases hd : d.type = .DOUBLE
      · obtain ⟨x, rfl⟩ : ∃ x, d = ._double x := by cases d <;> first | exact ⟨_, rfl⟩ | cases hd
        obtain ⟨y, rfl⟩ : ∃ y, d' = ._double y := by cases d' <;> first | exact ⟨_, rfl⟩ | cases ht
        exact .inr ⟨x, y, rfl, hne, rfl⟩
      · rw [eq_of_not_ne hd hne]
        exact .inl rfl
  | registry => exact .inl rfl
  | bytes b => exact absurd rfl hbytes
  | string b =>
    have hlen : (b ++ [0]).length < 2 ^ 32 := by simpa using hclean.2
    refine .inl ?_
    rw [Arg.written, trunc_eq_self.2 hlen, shown, List.dropLast_concat]
    rfl

theorem set_stored {a : Store} {arg : Arg} (h : (a.set name arg).1 = .ok) : ∃ hv : nr_reg_is_valid name = .ok,
    (∀ v, a.value ⟨name, hv⟩ = some v → v.type = arg.type) ∧
      (a.set name arg).2.value ⟨name, hv⟩ = some (arg.written (a.value ⟨name, hv⟩)) := by
  unfold Store.set at h ⊢
  split at h
  · rename_i hv
    split at h
    · rename_i hw
      refine ⟨hv, hw.1, ?_⟩
      rw [dif_pos hv, dif_pos hw]
      exact Hierarchy.write_self hw.2
    · cases h
  · cases h

/-- Under a key that holds a value of the type, the page is that of the value. -/
theorem textOf_held (env : Env) {k : Name} {v : Value} (hk : a.value k = some v) (hbytes : v.type ≠ .BYTES) :
    textOf env a k.bytes v.type = .ok (shown env k.bytes v) := by
  have hlookup : a.lookup k.bytes = .ok v := by
    rw [Store.lookup, dif_pos k.valid]
    show (a.value k).elim _ _ = _
    rw [hk]
    rfl
  have hheld : held env a k.bytes v.type = .ok (shown env k.bytes v) := by
    rw [held, hlookup]
    exact if_pos rfl
  cases v with
  | scalar d => cases d <;> exact hheld
  | registry => rfl
  | array string content =>
    cases string with
    | false => exact absurd rfl hbytes
    | true => exact hheld

/-- What was written does not differ, unless it is a double. -/
theorem differs_written {arg : Arg} (hclean : Clean arg) (hbytes : arg.type ≠ .BYTES) (hd : arg.type ≠ .DOUBLE) {old : Option Value}
    (h : ∀ v, old = some v → v.type = arg.type) : arg.differs (arg.written old) = false := by
  cases arg with
  | scalar d =>
    obtain ⟨d', hw, ht, hsame⟩ := written_scalar d h
    have heq : d' = d := hsame.elim id (eq_of_not_ne hd)
    rw [hw, heq]
    show d.ne d = false
    cases d <;> first | exact bne_self_eq_false _ | exact absurd rfl hd
  | registry => rfl
  | bytes b => exact absurd rfl hbytes
  | string b =>
    have hlen : (b ++ [0]).length < 2 ^ 32 := by simpa using hclean.2
    rw [Arg.written, trunc_eq_self.2 hlen]
    simp [Arg.differs]

/-- Setting a value a second time changes nothing. -/
theorem set_same (h : Refines s a) {k : Name} {arg : Arg} (hclean : Clean arg) (hbytes : arg.type ≠ .BYTES) (hd : arg.type ≠ .DOUBLE)
    {old : Option Value} (hold : ∀ v, old = some v → v.type = arg.type) (hk : a.value k = some (arg.written old)) :
    ∃ s', set idle s k.bytes arg = some (.ok, s') ∧ s'.map = s.map ∧ s'.events = s.events := by
  have hmap : s.map k.bytes = some (some (arg.written old)) := by rw [h.value, hk, Option.map_some]
  obtain ⟨p, node, hp, hn, hval, -, -⟩ := h.sound.1.node_of_map hmap
  have ht : node.type = arg.type := by rw [← Node.value_type, hval, Service.written_type hold]
  obtain ⟨r, s', hst, -⟩ : Returns s.cbs (set idle s k.bytes arg) :=
    setter_returns h.sound.1 (h.sound.2.live_nodes.not_read _) (quiet_of_zero h.cbs) arg
  obtain ⟨rfl, -, hmap', hevents⟩ := set_overwrites h.sound.1 hp hn ht r s' hst
  rw [hval, written_again, ← hmap, Function.update_eq_self] at hmap'
  rw [hval, differs_written hclean hbytes hd hold, if_neg (by simp), List.append_nil] at hevents
  exact ⟨s', hst, hmap', hevents⟩

theorem run_holds {s₀ : Reg} {a₀ : Store} (h₀ : Holds s₀ a₀) {evs : List (Input × Output)}
    (hrun : Run (step env) Allowed s₀ evs s) : ∃ a, Holds s a := by
  have hstep : ∀ s i o s', (∃ a, Holds s a) → Allowed s i → step env s i = some (o, s') → ∃ a, Holds s' a := by
    rintro s i o s' ⟨a, h⟩ hi hst
    obtain ⟨a', -, h'⟩ := h.step hi hst
    exact ⟨a', h'⟩
  exact hrun.inv (fun s => ∃ a, Holds s a) ⟨a₀, h₀⟩ hstep

/-- A PUT that is answered with `OK` was stored. -/
theorem put_stored {put : request_rec} {resp : Response} (hm : put.method_number = .M_PUT) (hok : resp.code = .OK)
    (h : Responds env a put resp a') : ∃ type arg, asks put = some (.ok (.put (some type))) ∧ Whole put ∧
      put_arg env type put.block = some (some arg) ∧ Takes a (transform_name put.uri) arg ∧
      a' = (a.set (transform_name put.uri) arg).2 := by
  unfold Responds at h
  cases hask : asks put with
  | none =>
    rw [hask] at h
    exact h.elim
  | some x =>
    rw [hask] at h
    cases x with
    | error code =>
      obtain ⟨rfl, -⟩ := h
      exact absurd hok (error_of_asks hask)
    | ok ask =>
      have hmethod := method_of_asks hask
      rw [hm] at hmethod
      cases ask with
      | getlength | getkeys | get type | delete => cases hmethod
      | put type =>
        rcases h with ⟨-, rfl, -⟩ | ⟨t, arg, rfl, hwhole, harg, htakes, -, ha'⟩
        · cases hok
        · exact ⟨t, arg, rfl, hwhole, harg, htakes, ha'⟩

/-- A value that was put and answered with 201 is on its page after every run of
requests and calls that do not touch its key; and unless it is a double, the text
of the page, put again, is answered and changes nothing. -/
theorem get_reads_last_put {s₀ s₁ s₂ : Reg} (hi : nr_reg_local_init idle = some (.ok, s₀)) {before after : List (Input × Output)}
    (hbefore : Run (step env) Allowed s₀ before s₁) {put : request_rec} (hm : put.method_number = .M_PUT) {resp : Response}
    (hput : registry_handler env (n + 1) s₁ put = .returns (resp, s₂)) (hok : resp.code = .OK)
    (hafter : Run (step env) Allowed s₂ after s) (hspares : ∀ e ∈ after, Spares (transform_name put.uri) e) :
    ∃ type arg text, asks put = some (.ok (.put (some type))) ∧ put_arg env type put.block = some (some arg) ∧
      Says env (transform_name put.uri) arg text ∧
      (∀ get : request_rec, get.method_number = .M_GET → get.uri = put.uri → get.args = put.args →
        registry_handler env n s get = .returns (page get text, s)) ∧
      (type ≠ .DOUBLE → ∀ again : request_rec, again.method_number = .M_PUT → again.uri = put.uri → again.args = put.args →
        Whole again → again.block = text →
        ∃ s', registry_handler env (n + 1) s again = .returns (created, s') ∧ s'.map = s.map ∧ s'.events = s.events) := by
  obtain ⟨a₁, h₁⟩ := run_holds (init_holds hi) hbefore
  have hfew : Few s₁ put := fun hask => by
    rw [method_of_asks hask] at hm
    cases hm
  obtain ⟨a₂, hresp, h₂⟩ := h₁.request hfew hput
  obtain ⟨type, arg, hask, hwhole, harg, htakes, rfl⟩ := put_stored hm hok hresp
  obtain ⟨hv, hold, hk⟩ := set_stored htakes.2
  obtain ⟨a, h, hka⟩ := kept h₂ hk hafter hspares
  obtain ⟨rfl, hclean⟩ := put_arg_type harg
  have hclean : Clean arg := hclean (by rw [hwhole.2.2]; exact put.small)
  have hne : put.block ≠ [] := fun hnil => by
    have hmore := put.more hwhole.2.1
    rw [← hwhole.2.2, hnil] at hmore
    exact Nat.lt_irrefl _ hmore
  have hbytes : arg.type ≠ .BYTES := put_not_bytes hne harg
  have hsays := says_written env (transform_name put.uri) hclean hbytes hold
  refine ⟨arg.type, arg, _, hask, harg, hsays, fun get hget huri hargs => ?_, fun hd again hm' huri hargs hwhole' hblock => ?_⟩
  · have htext := textOf_held env hka (by rw [Service.written_type hold]; exact hbytes)
    rw [Service.written_type hold] at htext
    rw [handler_asks, asks_page hask hget huri hargs]
    dsimp only
    rw [get_page h.refines h.texts, huri, valuePage, htext]
    rfl
  · obtain ⟨s', hst, hmap, hevents⟩ := set_same h.refines hclean hbytes hd hold hka
    have hagain : put_arg env arg.type again.block = some (some arg) := by
      rw [hblock]
      rcases hsays with htext | ⟨d, d', rfl, -⟩
      · rw [htext]
        exact put_arg_again hd hne harg
      · exact absurd rfl hd
    refine ⟨s', ?_, hmap, hevents⟩
    rw [handler_asks, asks_again (hm'.trans hm.symm) huri hargs, hask]
    dsimp only
    rw [put_whole hwhole', Option.bind_some, hagain, huri]
    dsimp only
    rw [hst]
    exact put_end_ok n s'

/-- A number that was put, asked for after a neighbour was set. -/
theorem get_reads_last_put_number : ∃ s₀ s₁ s evs, nr_reg_local_init idle = some (.ok, s₀) ∧
    registry_handler plain 1 s₀ (requestOf .M_PUT (str " -7 ") (by decide)) = .returns (created, s₁) ∧
    Run (step plain) Allowed s₁ evs s ∧ evs.map Prod.fst = [.call (.set (str "a.c") (.string (str "x")))] ∧
    registry_handler plain 0 s (requestOf .M_GET [] (by decide)) = .returns (page (requestOf .M_GET [] (by decide)) (str "-7"), s) := by
  have hex : ((nr_reg_local_init idle).any fun x => decide (x.1 = .ok) &&
      (registry_handler plain 1 x.2 (requestOf .M_PUT (str " -7 ") (by decide))).toOption.any fun y =>
        decide (y.1 = created) && (exec (step plain) inOrder y.2 [.call (.set (str "a.c") (.string (str "x")))]).any
          fun z => decide (z.1.length = 1)) = true := by decide +kernel
  obtain ⟨⟨r, s₀⟩, hi, hx⟩ := (Option.any_eq_true _ _).1 hex
  obtain ⟨hr, hx⟩ := Bool.and_eq_true_iff.1 hx
  obtain rfl : r = .ok := of_decide_eq_true hr
  obtain ⟨⟨resp, s₁⟩, hput, hx⟩ := (Option.any_eq_true _ _).1 hx
  have hput := Outcome.toOption_eq_some.1 hput
  obtain ⟨hresp, hx⟩ := Bool.and_eq_true_iff.1 hx
  obtain rfl : resp = created := of_decide_eq_true hresp
  obtain ⟨⟨outs, s⟩, hexec, hlen⟩ := (Option.any_eq_true _ _).1 hx
  obtain ⟨o, rfl⟩ := List.length_eq_one_iff.1 (of_decide_eq_true hlen)
  have hrun := (Run.exec .nil hexec).mono inOrder_allowed
  have hspares : ∀ e ∈ [] ++ [Input.call (.set (str "a.c") (.string (str "x")))].zip [o], Spares (str "a.b") e := by
    intro e he
    obtain rfl := List.mem_singleton.1 he
    cases o with
    | answer ans => exact fun _ => by decide
    | response resp => trivial
  obtain ⟨type, arg, text, hask, harg, hsays, hget, -⟩ := get_reads_last_put hi .nil rfl hput rfl hrun hspares
  obtain rfl : type = .INT4 := by
    cases hask
    rfl
  obtain rfl : arg = .scalar (._nr_int4 (-7)) := by
    have hscan : put_arg plain .INT4 (str " -7 ") = some (some (.scalar (._nr_int4 (-7)))) := by decide
    rw [requestOf, hscan] at harg
    cases harg
    rfl
  have htext : text = str "-7" := by
    rcases hsays with rfl | ⟨d, d', hd, -⟩
    · decide
    · cases hd
  refine ⟨s₀, s₁, s, _, hi, hput, hrun, rfl, ?_⟩
  rw [← htext]
  exact hget _ rfl rfl rfl

end Nrappkit.Web
