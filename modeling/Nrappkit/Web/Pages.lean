import Nrappkit.Web.Handler
/-!
# What the pages say

Each kind of request as its clients see it: what it asks is told by its path and
its query, and a page is told by the store behind the registry.
-/
open Lib Nrappkit.Registry Nrappkit.Assoc Nrappkit.Control Nrappkit.Service
open Nrappkit.Registry.Bytewise (NR_registry Sorts)

namespace Nrappkit.Web

variable {env : Env} {s s' : Reg} {a : Store} {name : Bytes} {r : request_rec}

/-! ## The question -/

inductive Ask where
  | getlength
  | getkeys
  | get (type : Option NR_REG_TYPE)
  | put (type : Option NR_REG_TYPE)
  | delete
  deriving DecidableEq

/-- What a request asks, or the error it is refused with; `none` where a value
that is not there is compared. -/
def asks (r : request_rec) : Option (Except Code Ask) :=
  if transform_name r.uri = [] then some (.error .HTTP_BAD_REQUEST)
  else if r.method_number = .M_DELETE then some (if r.args ≠ none then .error .HTTP_NOT_FOUND else .ok .delete)
  else match r.args.map parse_query_string with
    | none => some (.error .HTTP_BAD_REQUEST)
    | some (qs_param, qs_value) =>
      if r.method_number = .other then some (.error .HTTP_BAD_REQUEST)
      else (query_type qs_param qs_value).map (·.map fun type =>
        if r.method_number = .M_PUT then .put type
        else if qs_param = str "getlength" then .getlength
        else if qs_param = str "getkeys" then .getkeys
        else .get type)

/-- The handler answers the question. -/
theorem handler_asks (n : Nat) : registry_handler env n s r = match asks r with
    | none => .undefined
    | some (.error code) => .returns (refused code, s)
    | some (.ok .getlength) => (process_getlength_request s r (transform_name r.uri)).with s
    | some (.ok .getkeys) => (process_getkeys_request env s r (transform_name r.uri)).with s
    | some (.ok (.get type)) => (process_get_request env s r (transform_name r.uri) type).with s
    | some (.ok (.put type)) => process_put_request env n s r (transform_name r.uri) type
    | some (.ok .delete) => process_delete_request s (transform_name r.uri) := by
  unfold registry_handler asks
  dsimp only
  by_cases hname : transform_name r.uri = []
  · rw [if_pos hname, if_pos hname]
  rw [if_neg hname, if_neg hname]
  by_cases hdel : r.method_number = .M_DELETE
  · rw [if_pos hdel, if_pos hdel]
    by_cases hargs : r.args ≠ none
    · rw [if_pos hargs, if_pos hargs]
    · rw [if_neg hargs, if_neg hargs]
  rw [if_neg hdel, if_neg hdel]
  cases r.args.map parse_query_string with
  | none => rfl
  | some q =>
    obtain ⟨qs_param, qs_value⟩ := q
    dsimp only
    by_cases hother : r.method_number = .other
    · rw [if_pos hother, if_pos hother]
    rw [if_neg hother, if_neg hother]
    cases query_type qs_param qs_value with
    | none => rfl
    | some x =>
      cases x with
      | error code => rfl
      | ok type =>
        dsimp only [Option.map_some, Except.map]
        by_cases hput : r.method_number = .M_PUT
        · rw [if_pos hput, if_pos hput]
        rw [if_neg hput, if_neg hput]
        by_cases hlength : qs_param = str "getlength"
        · rw [if_pos hlength, if_pos hlength]
        rw [if_neg hlength, if_neg hlength]
        by_cases hkeys : qs_param = str "getkeys"
        · rw [if_pos hkeys, if_pos hkeys]
        · rw [if_neg hkeys, if_neg hkeys]

/-! ## Lengths -/

def lengthPage (a : Store) (r : request_rec) (name : Bytes) : Response :=
  match a.lookup name with
  | .ok v => page r (numeral 10 (Store.lengthOf name v % 2 ^ 32))
  | .error _ => refused .HTTP_NOT_FOUND

theorem getlength_page (h : Refines s a) : process_getlength_request s r name = .returns (lengthPage a r name) := by
  rw [process_getlength_request, h.get_length, lengthPage]
  cases a.lookup name <;> rfl

/-! ## Keys -/

/-- The children of a name, in the order of `strcasecmp`. -/
def listed (env : Env) (s : Reg) (parent : Bytes) : List Bytes :=
  (env.qsort (Bytewise.filled (List.replicate ((child_names s parent).length + 1) NR_registry.zeroed) (child_names s parent))).map
    NR_registry.text

theorem zeroed_copy (hv : nr_reg_is_valid name = .ok) : (NR_registry.zeroed.copy name).string = some name := by
  rw [Bytewise.copy_string hv, if_neg]
  rintro ⟨-, hlast⟩
  exact hlast rfl

theorem filled_strings (h : RInv s) (parent : Bytes) : ∀ x ∈ Bytewise.filled
    (List.replicate ((child_names s parent).length + 1) NR_registry.zeroed) (child_names s parent),
      x.string = some x.text ∧ nr_reg_is_valid x.text = .ok := by
  intro x hx
  obtain ⟨i, z, key, hz, hkey, rfl⟩ := Bytewise.mem_filled hx
  obtain rfl := List.eq_of_mem_replicate (List.mem_of_getElem? hz)
  have hv : nr_reg_is_valid key = .ok := valid_of_stored h ((mem_children h).1 (List.mem_of_getElem? hkey)).2
  have hstring := zeroed_copy hv
  rw [NR_registry.text_of_string hstring]
  exact ⟨hstring, hv⟩

theorem listed_perm (env : Env) (h : RInv s) (parent : Bytes) : (listed env s parent).Perm (child_names s parent) := by
  have hperm := (env.sorts.perm (Bytewise.filled
    (List.replicate ((child_names s parent).length + 1) NR_registry.zeroed) (child_names s parent))).map NR_registry.text
  refine hperm.trans (List.Perm.of_eq (Bytewise.filled_text ?_ ?_))
  · rw [List.length_replicate]
    exact Nat.le_succ _
  · intro i z key hz hkey
    obtain rfl := List.eq_of_mem_replicate (List.mem_of_getElem? hz)
    exact NR_registry.text_of_string (zeroed_copy (valid_of_stored h ((mem_children h).1 (List.mem_of_getElem? hkey)).2))

theorem listed_sorted (s : Reg) (parent : Bytes) : (listed env s parent).Pairwise caseLe :=
  List.pairwise_map.2 (env.sorts.sorted _)

theorem listed_lists (h : Refines s a) (parent : Bytes) : a.Lists (Child parent) (listed env s parent) := by
  have hperm := listed_perm env h.sound.1 parent
  refine ⟨hperm.nodup_iff.2 (children_nodup h.sound.1), fun n => ?_⟩
  rw [hperm.mem_iff, mem_children h.sound.1, h.stored]

/-- The child at an index below the number of the children. -/
theorem child_at (h : RInv s) {parent : Bytes} (hne : parent ≠ []) (hreg : s.map parent = some (some .registry))
    (hfew : (child_names s parent).length < 2 ^ 31) {i : Nat} {key : Bytes} (hkey : (listed env s parent)[i]? = some key)
    (child : NR_registry) :
    ∃ child', Bytewise.NR_reg_get_child_registry env.qsort s parent (UInt32.ofNat i) child = some (.ok child') ∧
      child'.string = some key := by
  have hv : nr_reg_is_valid parent = .ok := valid_of_stored h (by simp [hreg])
  have hlen := (listed_perm env h parent).length_eq
  have hi : i < (child_names s parent).length := hlen ▸ (List.getElem?_eq_some_iff.1 hkey).1
  have hofNat : ∀ n, n < 2 ^ 31 → (UInt32.ofNat n).toNat = n := fun n hn =>
    UInt32.toNat_ofNat_of_lt' (Nat.lt_trans hn (by decide))
  obtain ⟨x, hx, htext⟩ : ∃ x, (env.qsort (Bytewise.filled
      (List.replicate ((child_names s parent).length + 1) NR_registry.zeroed) (child_names s parent)))[i]? = some x ∧ x.text = key := by
    rw [listed, List.getElem?_map] at hkey
    exact Option.map_eq_some_iff.1 hkey
  obtain ⟨hstring, hvkey⟩ := filled_strings h parent x ((env.sorts.perm _).mem_iff.1 (List.mem_of_getElem? hx))
  have hsize : (List.replicate ((child_names s parent).length + 1) NR_registry.zeroed).length = (child_names s parent).length + 1 :=
    List.length_replicate
  have hget := Bytewise.get_children_bytes h env.sorts hv
    (List.replicate ((child_names s parent).length + 1) NR_registry.zeroed)
  rw [hsize] at hget
  rcases hget with ⟨-, hget⟩ | ⟨-, hnil, -⟩ | ⟨-, hle, -⟩
  · refine ⟨child.strncpy NR_REG_MAX_NR_REGISTRY_LEN (Nat.le_refl _) x.text, ?_, ?_⟩
    · have hfirst : i < (env.qsort (Bytewise.filled
          (List.replicate ((child_names s parent).length + 1) NR_registry.zeroed) (child_names s parent))).length :=
        (List.getElem?_eq_some_iff.1 hx).1
      unfold Bytewise.NR_reg_get_child_registry
      rw [child_count_eq h hreg, counted_names_eq hne]
      dsimp only
      rw [hofNat _ hfew, hofNat i (Nat.lt_trans hi hfew), if_neg (Nat.not_le.2 hi), hget]
      dsimp only
      rw [if_neg (Nat.not_le.2 hi), List.getElem?_append_left hfirst, hx]
      rfl
    · rw [← htext]
      exact Bytewise.copied_out hvkey hstring
  · cases hnil
  · omega

/-- The loop reads the children from an index on. -/
theorem getkeys_loop_eq (env : Env) (h : RInv s) {parent : Bytes} (hne : parent ≠ []) (hreg : s.map parent = some (some .registry))
    (hfew : (child_names s parent).length < 2 ^ 31) {n i : Nat} (hi : i + n = (child_names s parent).length) (child : NR_registry) :
    ∃ child', getkeys_loop env s parent n i child = some (.ok ((listed env s parent).drop i, child')) := by
  have hlen := (listed_perm env h parent).length_eq
  induction n generalizing i child with
  | zero => exact ⟨child, by rw [getkeys_loop, List.drop_eq_nil_of_le (by omega)]⟩
  | succ n ih =>
    have hlt : i < (listed env s parent).length := by omega
    obtain ⟨child₁, hat, hstring⟩ := child_at h hne hreg hfew (List.getElem?_eq_getElem hlt) child
    obtain ⟨child', hrest⟩ := ih (i := i + 1) (by omega) child₁
    refine ⟨child', ?_⟩
    rw [getkeys_loop, hat]
    dsimp only
    rw [hstring]
    dsimp only
    rw [if_neg (by omega), hrest, List.drop_eq_getElem_cons hlt]
    rfl

/-- The children of a registry, one a line. -/
def keysPage (a : Store) (r : request_rec) (name : Bytes) (resp : Response) : Prop :=
  ∃ keys, a.Lists (Child name) keys ∧ keys.Pairwise caseLe ∧
    resp = if a.lookup name = .ok .registry then page r (keys.flatMap (· ++ [13, 10])) else refused .HTTP_NOT_FOUND

theorem getkeys_page (env : Env) (h : Refines s a) (hne : name ≠ []) (hfew : (child_names s name).length < 2 ^ 31) :
    ∃ resp, process_getkeys_request env s r name = .returns resp ∧ keysPage a r name resp := by
  refine ⟨_, ?_, listed env s name, listed_lists h name, listed_sorted s name, rfl⟩
  obtain ⟨l, -, hcount⟩ := h.get_child_count name
  rw [process_getkeys_request]
  by_cases hreg : a.lookup name = .ok .registry
  · have hmap := h.lookup_ok.1 hreg
    have hofNat : (UInt32.ofNat (child_names s name).length).toNat = (child_names s name).length :=
      UInt32.toNat_ofNat_of_lt' (Nat.lt_trans hfew (by decide))
    obtain ⟨child₁, hfirst⟩ := getkeys_loop_eq env h.sound.1 hne hmap hfew (Nat.zero_add _) env.child
    obtain ⟨child₂, hsecond⟩ := getkeys_loop_eq env h.sound.1 hne hmap hfew (Nat.zero_add _) child₁
    rw [child_count_eq h.sound.1 hmap, counted_names_eq hne, if_pos hreg]
    dsimp only
    rw [hofNat, hfirst]
    dsimp only
    rw [hsecond, page]
    cases hheader : r.header_only with
    | true => simp [page, hheader]
    | false => simp [page, hheader]
  · rw [hcount, if_neg hreg]
    cases hl : a.lookup name with
    | error e => rfl
    | ok v =>
      have hv : v ≠ .registry := fun he => hreg (by rw [hl, he])
      dsimp only [Except.bind]
      rw [if_neg hv]

/-! ## Values -/

/-- Every stored string ends with its terminator. -/
def Texts (a : Store) : Prop := ∀ n content, a.value n = some (.array true content) → ∃ b, 0 ∉ b ∧ content = b ++ [0]

/-- What a value looks like. -/
def shown (env : Env) (name : Bytes) : Value → Bytes
  | .scalar v => scalarText env v
  | .registry => name
  | .array _ content => content.dropLast

/-- The text of a value of a type. -/
def held (env : Env) (a : Store) (name : Bytes) (type : NR_REG_TYPE) : Except Status Bytes :=
  (a.lookup name).bind fun v => if v.type = type then .ok (shown env name v) else .error .R_FAILED

/-- What is printed for a type. The text of a registry does not depend on what is
stored, and blocks of bytes are not printed. -/
def textOf (env : Env) (a : Store) (name : Bytes) : NR_REG_TYPE → Except Status Bytes
  | .REGISTRY => .ok name
  | .BYTES => .error .R_INTERNAL
  | type => held env a name type

theorem scalar_of_type {v : Value} (hreg : v.type ≠ .REGISTRY) (hbytes : v.type ≠ .BYTES) (hstring : v.type ≠ .STRING) :
    ∃ d, v = .scalar d := by
  cases v with
  | scalar d => exact ⟨d, rfl⟩
  | registry => exact absurd rfl hreg
  | array string content =>
    cases string with
    | false => exact absurd rfl hbytes
    | true => exact absurd rfl hstring

theorem scalar_text (h : Refines s a) {type : NR_REG_TYPE} (hreg : type ≠ .REGISTRY) (hbytes : type ≠ .BYTES)
    (hstring : type ≠ .STRING) :
    (getScalar s name type).map (·.map (scalarText env)) = some (held env a name type) := by
  have hgetter : getter s name 0 type = (getScalar s name type).map (·.map .scalar) := by
    cases type <;> first | rfl | contradiction
  have hshown : (getScalar s name type).map (·.map (scalarText env)) = (getter s name 0 type).map (·.map (shown env name)) := by
    rw [hgetter, Option.map_map]
    congr 1
    funext x
    cases x <;> rfl
  rw [hshown, h.get, Option.map_some, Store.get, held]
  cases a.lookup name with
  | error e => rfl
  | ok v =>
    dsimp only [Except.bind]
    by_cases htype : v.type = type
    · subst htype
      obtain ⟨d, rfl⟩ := scalar_of_type hreg hbytes hstring
      rw [if_neg (not_not.2 rfl), if_pos rfl]
      rfl
    · rw [if_pos htype, if_neg htype]
      rfl

theorem string_of_type {v : Value} (h : v.type = .STRING) : ∃ content, v = .array true content := by
  cases v with
  | scalar d => cases d <;> cases h
  | registry => cases h
  | array string content =>
    cases string with
    | false => cases h
    | true => exact ⟨content, rfl⟩

theorem string_text (h : Refines s a) (ht : Texts a) (name : Bytes) :
    NR_reg_alloc_string s name = some (held env a name .STRING) := by
  rcases h.lookup_cases name with ⟨hv, -, hl⟩ | ⟨hv, hp, -, hl⟩ | ⟨hv, p, node, hp, hn, -, hval, hl⟩
  · rw [NR_reg_alloc_string, h.get_length, held, hl]
    rfl
  · rw [NR_reg_alloc_string, h.get_length, held, hl]
    rfl
  · have hmap : s.map name = some (some node.value) := by rw [Reg.map, hp, Option.map_some, hn, Option.map_some]
    rw [held, hl]
    dsimp only [Except.bind]
    by_cases htype : node.value.type = .STRING
    · rw [if_pos htype]
      obtain ⟨content, hcontent⟩ := string_of_type htype
      rw [hcontent] at hmap hval ⊢
      obtain ⟨b, h0, rfl⟩ := ht _ content hval
      rw [alloc_string_stored h.sound.1 h0 hmap, shown, List.dropLast_concat]
    · have hget : ∀ size, nr_reg_local_get_string s name size = some (.error .R_FAILED) := by
        intro size
        have hgetter : (nr_reg_local_get_string s name size).map (·.map (Value.array true)) = some (.error .R_FAILED) := by
          have hst := getter_stored h.sound.1 hmap size .STRING
          rw [if_pos htype] at hst
          exact hst
        obtain ⟨x, hx, hmapped⟩ := Option.map_eq_some_iff.1 hgetter
        cases x with
        | ok content => cases hmapped
        | error e =>
          cases hmapped
          exact hx
      rw [if_neg htype, NR_reg_alloc_string, h.get_length, hl]
      dsimp only [Except.map]
      rw [hget]

theorem getText_eq (h : Refines s a) (ht : Texts a) (name : Bytes) (type : NR_REG_TYPE) :
    getText env s name type = some (textOf env a name type) := by
  cases type with
  | REGISTRY => rfl
  | BYTES => rfl
  | STRING => exact string_text h ht name
  | _ => exact scalar_text h (by decide) (by decide) (by decide)

def failure : Status → Code
  | .R_NOT_FOUND => .HTTP_NOT_FOUND
  | _ => .HTTP_INTERNAL_SERVER_ERROR

def valuePage (env : Env) (a : Store) (r : request_rec) (name : Bytes) (type : NR_REG_TYPE) : Response :=
  match textOf env a name type with
  | .ok text => page r text
  | .error e => refused (failure e)

theorem get_page (h : Refines s a) (ht : Texts a) (type : NR_REG_TYPE) :
    process_get_request env s r name (some type) = .returns (valuePage env a r name type) := by
  rw [process_get_request, Option.bind_some, getText_eq h ht, valuePage]
  cases textOf env a name type with
  | ok text => rfl
  | error e => cases e <;> rfl

end Nrappkit.Web
