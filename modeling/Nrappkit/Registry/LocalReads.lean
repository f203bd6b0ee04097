import Nrappkit.Registry.LocalProgress
/-!
# Reading back what was written

`getter` is the getter for a type, called with a buffer of a given size. On a
stored name it depends on the value only. The theorem about writes follows:
the `length` of an array node is an `unsigned int`, so a setter that returns 0
has stored its value exactly when the array is shorter than 2^32 bytes.
-/
open Lib Nrappkit.Assoc

namespace Nrappkit.Registry

variable {beh : nr_reg_cb_info → UInt8} {s s' : Reg} {name : Bytes}

/-- The getter for the type; only the last two look at the size. -/
def getter (s : Reg) (name : Bytes) (size : Nat) : NR_REG_TYPE → Option (Except Status Value)
  | .CHAR => (nr_reg_local_get_char s name).map (·.map .scalar)
  | .UCHAR => (nr_reg_local_get_uchar s name).map (·.map .scalar)
  | .INT2 => (nr_reg_local_get_int2 s name).map (·.map .scalar)
  | .UINT2 => (nr_reg_local_get_uint2 s name).map (·.map .scalar)
  | .INT4 => (nr_reg_local_get_int4 s name).map (·.map .scalar)
  | .UINT4 => (nr_reg_local_get_uint4 s name).map (·.map .scalar)
  | .INT8 => (nr_reg_local_get_int8 s name).map (·.map .scalar)
  | .UINT8 => (nr_reg_local_get_uint8 s name).map (·.map .scalar)
  | .DOUBLE => (nr_reg_local_get_double s name).map (·.map .scalar)
  | .REGISTRY => (nr_reg_local_get_registry s name).map (·.map fun _ => .registry)
  | .BYTES => (nr_reg_local_get_bytes s name size).map (·.map (.array false))
  | .STRING => (nr_reg_local_get_string s name size).map (·.map (.array true))

def Value.type : Value → NR_REG_TYPE
  | scalar v => v.type
  | registry => .REGISTRY
  | array string _ => arrayType string

/-- The size a buffer must have. -/
def Value.size : Value → Nat
  | array _ content => content.length
  | _ => 0

theorem Node.value_type (node : Node) : node.value.type = node.type := by
  cases node <;> rfl

/-! ## The getters -/

/-- The node of a stored name, its block long enough. -/
theorem RInv.node_of_map (h : RInv s) {v : Value} (hm : s.map name = some (some v)) :
    ∃ p node, s.ptr name = some p ∧ s.nodes p = some node ∧ node.value = v ∧ nr_reg_is_valid name = .ok ∧ node.Ok := by
  obtain ⟨p, hp, hv⟩ := Option.map_eq_some_iff.1 hm
  obtain ⟨node, hn, hv⟩ := Option.map_eq_some_iff.1 hv
  refine ⟨p, node, hp, hn, hv, (h.ptr_some hp).2.2, ?_⟩
  cases node with
  | array string length data => exact h.block p string length data hn
  | _ => trivial

theorem fetch_stored (h : RInv s) {p : Ptr} {node : Node} (hp : s.ptr name = some p) (hn : s.nodes p = some node)
    (type : NR_REG_TYPE) :
    nr_reg_fetch_node s name type = some (if node.type ≠ type then .error .R_FAILED else .ok (p, node)) := by
  rw [h.fetch_node (h.ptr_some hp).2.2, hp]
  simp only [hn, Option.map_some]

/-- A getter on a stored name: another type is refused, a small buffer is
refused, and otherwise the value is returned. -/
theorem getter_stored (h : RInv s) {v : Value} (hm : s.map name = some (some v)) (size : Nat) (type : NR_REG_TYPE) :
    getter s name size type = some (if v.type ≠ type then .error .R_FAILED
      else if size < v.size then .error .R_BAD_ARGS else .ok v) := by
  obtain ⟨p, node, hp, hn, rfl, hv, hok⟩ := h.node_of_map hm
  have hf := fetch_stored h hp hn
  rw [Node.value_type]
  by_cases ht : node.type = type
  · subst ht
    cases node with
    | scalar v =>
      cases v <;> simp [getter, nr_reg_local_get_char, nr_reg_local_get_uchar, nr_reg_local_get_int2,
        nr_reg_local_get_uint2, nr_reg_local_get_int4, nr_reg_local_get_uint4, nr_reg_local_get_int8,
        nr_reg_local_get_uint8, nr_reg_local_get_double, nr_reg_get, hf, Node.type, Node.value, Value.size,
        Scalar.type, Except.map]
    | registry => simp [getter, nr_reg_local_get_registry, hf, Node.type, Node.value, Value.size, Except.map]
    | array string length data =>
      have hlen : (data.take length.toNat).length = length.toNat := by
        rw [List.length_take]
        exact Nat.min_eq_left hok
      have hle : length.toNat ≤ data.length := hok
      cases string <;> simp only [getter, Node.type, arrayType, nr_reg_local_get_bytes, nr_reg_local_get_string,
        nr_reg_get_array, hf, Node.value, Value.size, hlen] <;> by_cases hs : size < length.toNat <;>
        simp [hs, hle, Except.map]
  · rw [if_pos ht]
    cases type <;> simp [getter, nr_reg_local_get_char, nr_reg_local_get_uchar, nr_reg_local_get_int2,
      nr_reg_local_get_uint2, nr_reg_local_get_int4, nr_reg_local_get_uint4, nr_reg_local_get_int8,
      nr_reg_local_get_uint8, nr_reg_local_get_double, nr_reg_local_get_registry, nr_reg_local_get_bytes,
      nr_reg_local_get_string, nr_reg_get_array, arrayType, nr_reg_get, hf, ht, Except.map]

theorem get_length_stored (h : RInv s) {p : Ptr} {node : Node} (hp : s.ptr name = some p) (hn : s.nodes p = some node) :
    nr_reg_local_get_length s name = some (.ok (nr_reg_compute_length name node)) := by
  unfold nr_reg_local_get_length
  rw [if_neg (by simp [(h.ptr_some hp).2.2]), h.fetch_ptr, hp]
  simp only [hn, Option.map_some]

/-- The array node behind a value. -/
theorem RInv.array_of_map (h : RInv s) {string : Bool} {content : Bytes}
    (hm : s.map name = some (some (.array string content))) :
    ∃ p length data, s.ptr name = some p ∧ s.nodes p = some (.array string length data) ∧
      data.take length.toNat = content ∧ content.length = length.toNat ∧ length.toNat ≤ data.length := by
  obtain ⟨p, node, hp, hn, hval, -, hok⟩ := h.node_of_map hm
  cases node with
  | scalar v => cases hval
  | registry => cases hval
  | array st length data =>
    obtain ⟨rfl, rfl⟩ := Value.array.inj hval
    refine ⟨p, length, data, hp, hn, rfl, ?_, hok⟩
    rw [List.length_take]
    exact Nat.min_eq_left hok

/-- `NR_reg_alloc_data` on stored bytes: its assertion holds. -/
theorem alloc_data_stored (h : RInv s) {content : Bytes} (hm : s.map name = some (some (.array false content))) :
    NR_reg_alloc_data s name = some (.ok content) := by
  obtain ⟨p, length, data, hp, hn, rfl, hlen, hle⟩ := h.array_of_map hm
  unfold NR_reg_alloc_data nr_reg_local_get_bytes nr_reg_get_array
  rw [get_length_stored h hp hn, fetch_stored h hp hn]
  simp only [Node.type, nr_reg_compute_length, ne_eq, not_true_eq_false, if_false, Nat.lt_irrefl, hle, if_true, hlen]

theorem strlen_append (b : Bytes) (h0 : 0 ∉ b) : strlen (b ++ [0]) = some b.length := by
  rw [strlen, if_pos (by simp), List.idxOf_append_of_notMem h0]
  simp

/-- `NR_reg_alloc_string` on a stored string: its assertion holds. -/
theorem alloc_string_stored (h : RInv s) {b : Bytes} (h0 : 0 ∉ b)
    (hm : s.map name = some (some (.array true (b ++ [0])))) : NR_reg_alloc_string s name = some (.ok b) := by
  obtain ⟨p, length, data, hp, hn, hcontent, hlen, hle⟩ := h.array_of_map hm
  rw [List.length_append, List.length_singleton] at hlen
  have hone : (1 : UInt32) ≤ length := by
    rw [UInt32.le_iff_toNat_le, ← hlen]
    exact Nat.le_add_left 1 _
  have hsub : (length - 1).toNat = b.length := by
    rw [UInt32.toNat_sub_of_le _ _ hone, ← hlen]
    rfl
  unfold NR_reg_alloc_string nr_reg_local_get_string nr_reg_get_array
  rw [get_length_stored h hp hn, fetch_stored h hp hn]
  simp only [Node.type, nr_reg_compute_length, ne_eq, not_true_eq_false, if_false, hsub]
  rw [if_neg (by omega), if_pos hle, hcontent]
  dsimp only
  rw [if_pos (strlen_append b h0), List.take_left]

/-! ## Successful writes -/

/-- The value a caller gives; the terminator of a string is stored with it. -/
def Arg.value : Arg → Value
  | .scalar d => .scalar d
  | .registry => .registry
  | .bytes b => .array false b
  | .string b => .array true (b ++ [0])

/-- An integer, a character, bytes or a C string. -/
def Arg.Plain : Arg → Prop
  | .scalar d => d.type ≠ .DOUBLE
  | .registry => False
  | .bytes _ => True
  | .string b => 0 ∉ b

/-- `NR_reg_alloc_data` and `NR_reg_alloc_string` return the content. -/
def AllocReads (s : Reg) (name : Bytes) : Arg → Prop
  | .bytes b => NR_reg_alloc_data s name = some (.ok b)
  | .string b => NR_reg_alloc_string s name = some (.ok b)
  | _ => True

/-- What a setter that returns 0 is to do. -/
structure Written (s : Reg) (name : Bytes) (arg : Arg) (s' : Reg) : Prop where
  /-- The getter returns the value to a buffer that is large enough. -/
  read : ∀ size, getter s' name size arg.type =
    some (if size < arg.value.size then .error .R_BAD_ARGS else .ok arg.value)
  alloc : AllocReads s' name arg
  other : ∀ size, ∀ type ≠ arg.type, getter s' name size type = some (.error .R_FAILED)
  parents : ∀ a, Ancestor a name → s.map a = none → s'.map a = some (some .registry)
  frame : ∀ n ≠ name, ¬ (Ancestor n name ∧ s.map n = none) → s'.map n = s.map n

theorem trunc_eq_self {data : Bytes} : trunc data = data ↔ data.length < 2 ^ 32 := by
  have hmod := Nat.mod_lt data.length (Nat.two_pow_pos 32)
  constructor
  · intro h
    have hlen := congrArg List.length h
    rw [trunc, List.length_take] at hlen
    omega
  · intro h
    rw [trunc, Nat.mod_eq_of_lt h, List.take_length]

theorem Scalar.ne_eq_false {v d : Scalar} (ht : v.type = d.type) (hd : d.type ≠ .DOUBLE) :
    v.ne d = false ↔ v = d := by
  cases v <;> cases d <;> cases ht <;> simp [Scalar.ne, Scalar.type] at hd ⊢

theorem stored_eq {d : Scalar} (hd : d.type ≠ .DOUBLE) : stored d = d := by
  have ht : d.zeroed.type = d.type := by cases d <;> rfl
  cases hne : d.zeroed.ne d with
  | true => rw [stored, if_pos hne]
  | false =>
    rw [stored, if_neg (by simp [hne])]
    exact (Scalar.ne_eq_false ht hd).1 hne

/-- The value a setter leaves is its own up to the length of an array. -/
theorem written_eq {arg : Arg} (hp : arg.Plain) {old : Option Value} (ho : ∀ v, old = some v → v.type = arg.type) :
    arg.written old = arg.value ↔ arg.value.size < 2 ^ 32 := by
  cases arg with
  | scalar d =>
    refine iff_of_true ?_ (Nat.two_pow_pos 32)
    have hs : Value.scalar (stored d) = .scalar d := by rw [stored_eq hp]
    cases old with
    | none => exact hs
    | some v =>
      cases v with
      | scalar v =>
        show Value.scalar (if v.ne d then d else v) = .scalar d
        cases hne : v.ne d with
        | true => rfl
        | false =>
          rw [(Scalar.ne_eq_false (ho _ rfl) hp).1 hne]
          rfl
      | registry => exact hs
      | array _ _ => exact hs
  | registry => exact hp.elim
  | bytes b => exact ⟨fun h => trunc_eq_self.1 (Value.array.inj h).2, fun h => congrArg _ (trunc_eq_self.2 h)⟩
  | string b => exact ⟨fun h => trunc_eq_self.1 (Value.array.inj h).2, fun h => congrArg _ (trunc_eq_self.2 h)⟩

theorem written_type {arg : Arg} {old : Option Value} (ho : ∀ v, old = some v → v.type = arg.type) :
    (arg.written old).type = arg.type := by
  have hs : ∀ d : Scalar, (stored d).type = d.type := by
    intro d
    rw [stored]
    split
    · rfl
    · cases d <;> rfl
  cases arg with
  | scalar d =>
    cases old with
    | none => exact hs d
    | some v =>
      cases v with
      | scalar v =>
        show (if v.ne d then d else v).type = d.type
        split
        · rfl
        · exact ho _ rfl
      | registry => exact hs d
      | array _ _ => exact hs d
  | registry => rfl
  | bytes b => rfl
  | string b => rfl

theorem newAncestors_absent_name {a : Bytes} (h : a ∈ newAncestors s name) : s.map a = none := by
  rw [map_none]
  simpa using List.all_eq_true.1 List.all_takeWhile a h

/-- Where a setter returned 0: the value it left, the ancestors and the other
names. -/
theorem set_ok_map (h : RInv s) (ht : Tree s.map) {arg : Arg} (hst : set beh s name arg = some (.ok, s')) :
    RInv s' ∧ (∃ old, (∀ v, old = some v → v.type = arg.type) ∧ s'.map name = some (some (arg.written old))) ∧
      (∀ a, Ancestor a name → s.map a = none → s'.map a = some (some .registry)) ∧
      ∀ n ≠ name, ¬ (Ancestor n name ∧ s.map n = none) → s'.map n = s.map n := by
  have hs : Safe s (.set name arg) := safe_of_ok h hst
  rcases set_cases h hs hst with ⟨hne, -⟩ | ⟨p, node, hp, hn, htype, -, hinv, hmap, -⟩ | ⟨hp, -, hpf, -, hinv, hc⟩
  · exact absurd rfl hne
  · have hstored : s.map name ≠ none := by rw [ne_eq, map_none, hp]; simp
    refine ⟨hinv, ⟨some node.value, ?_, ?_⟩, fun a ha hnone => ?_, fun n hne _ => ?_⟩
    · rintro v ⟨⟩
      rw [Node.value_type, htype]
    · rw [hmap, Function.update_self]
    · rw [ht.up name a hstored ha] at hnone
      cases hnone
    · rw [hmap, Function.update_of_ne hne]
  · refine ⟨hinv, ⟨none, (by rintro v ⟨⟩), ?_⟩, fun a ha hnone => ?_, fun n hne hnew => ?_⟩
    · simp [hc.map]
    · have hnn : a ≠ name := by
        rintro rfl
        exact absurd ha.length (Nat.lt_irrefl _)
      rcases ancestors_new_or_registry ht hpf (mem_ancestors.2 ha) with hin | hreg
      · simp [hc.map, hnn, hin]
      · rw [hreg] at hnone
        cases hnone
    · have hnot : n ∉ newAncestors s name := fun hin =>
        hnew ⟨newAncestors_ancestor hin, newAncestors_absent_name hin⟩
      simp [hc.map, hne, hnot]

/-- The table is in order, and its names are a tree. -/
def Sound (s : Reg) : Prop := RInv s ∧ Tree s.map

theorem set_sound (h : Sound s) {arg : Arg} (hst : set beh s name arg = some (.ok, s')) : Sound s' := by
  have hsafe : Safe s (.set name arg) := safe_of_ok h.1 hst
  exact ⟨(set_ok_map h.1 h.2 hst).1, step_tree h.1 h.2 hsafe hst⟩

/-- After every run of calls that return 0, a setter that returns 0 does what
it should exactly when its array is shorter than 2^32 bytes, the terminator of
a string counted. -/
theorem set_ok_iff_short {evs : List (RegOp × Status)} (hrun : Reaches beh (fun _ _ => True) evs s)
    (hok : ∀ e ∈ evs, e.2 = .ok) {arg : Arg} (harg : arg.Plain) (hst : set beh s name arg = some (.ok, s')) :
    Written s name arg s' ↔ arg.value.size < 2 ^ 32 := by
  obtain ⟨hinv, ⟨old, hold, hmap⟩, hparents, hframe⟩ := set_ok_map hrun.rinv (hrun.safe hok).tree hst
  have hget := getter_stored hinv hmap
  rw [written_type hold] at hget
  constructor
  · intro hw
    -- a buffer that both the value and what is stored fit into
    have hread := hw.read (arg.value.size + (arg.written old).size)
    rw [hget, if_neg (by simp), if_neg (by omega), if_neg (by omega)] at hread
    rw [← written_eq harg hold]
    exact Except.ok.inj (Option.some.inj hread)
  · intro hshort
    rw [(written_eq harg hold).2 hshort] at hget hmap
    refine ⟨fun size => ?_, ?_, fun size type hne => ?_, hparents, hframe⟩
    · rw [hget, if_neg (by simp)]
    · cases arg with
      | scalar d => trivial
      | registry => trivial
      | bytes b => exact alloc_data_stored hinv hmap
      | string b => exact alloc_string_stored hinv harg hmap
    · rw [hget, if_pos (Ne.symm hne)]

/-- An array overwritten by a shorter one and then by a longer one. -/
theorem set_ok_longer_again :
    ∃ s s', Reaches (fun _ => 0) (fun _ _ => True)
        [(.set (str "a.b") (.bytes [1, 2, 3]), .ok), (.set (str "a.b") (.bytes [4]), .ok)] s ∧
      set (fun _ => 0) s (str "a.b") (.bytes [5, 6]) = some (.ok, s') ∧ Written s (str "a.b") (.bytes [5, 6]) s' := by
  have hex : (trace (fun _ => 0) (fun _ _ => true) [.set (str "a.b") (.bytes [1, 2, 3]),
      .set (str "a.b") (.bytes [4])]).any (fun x => x.1 = [.ok, .ok] &&
        (set (fun _ => 0) x.2 (str "a.b") (.bytes [5, 6])).any (·.1 = .ok)) = true := by decide +kernel
  obtain ⟨⟨rs, s⟩, htr, hx⟩ := (Option.any_eq_true _ _).1 hex
  simp only [Bool.and_eq_true, decide_eq_true_eq] at hx
  obtain ⟨rfl, hy⟩ := hx
  obtain ⟨⟨r, s'⟩, hst, hr⟩ := (Option.any_eq_true _ _).1 hy
  obtain rfl : r = .ok := by simpa using hr
  have hreach : Reaches (fun _ => 0) (fun _ _ => True) _ s := (trace_reaches htr).mono fun _ _ _ => trivial
  have hplain : (Arg.bytes [5, 6]).Plain := trivial
  exact ⟨s, s', hreach, hst, (set_ok_iff_short hreach (by simp) hplain hst).2 (by decide)⟩

/-- 2^32 zeros are stored as an empty array, and the setter returns 0. -/
theorem set_ok_long_array :
    ∃ s s', Reaches (fun _ => 0) (fun _ _ => True) [] s ∧
      set (fun _ => 0) s (str "a") (.bytes (List.replicate (2 ^ 32) 0)) = some (.ok, s') ∧
      s'.map (str "a") = some (some (.array false [])) ∧
      ¬ Written s (str "a") (.bytes (List.replicate (2 ^ 32) 0)) s' := by
  obtain ⟨s₀, hi, -⟩ := init_returns
  have hreach : Reaches (fun _ => 0) (fun _ _ => True) [] s₀ := ⟨s₀, hi, .nil⟩
  have hsafe : Reaches (fun _ => 0) Safe [] s₀ := hreach.safe (by simp)
  obtain ⟨hinv, hmap, -⟩ := init_spec hi
  have hv : nr_reg_is_valid (str "a") = .ok := by decide
  have hp : s₀.ptr (str "a") = none := by
    rw [← map_none, hmap]
    rfl
  obtain ⟨r, s', hst⟩ := safe_run_returns hsafe (.set (str "a") (.bytes (List.replicate (2 ^ 32) 0)))
  have hout : Outcome s₀ (str "a") _ (set (fun _ => 0) s₀ (str "a") (.bytes (List.replicate (2 ^ 32) 0))) :=
    set_new hinv hv hp _
  have hr : r = .ok := by
    by_contra hne
    have hpf := hout.fail r s' hst hne
    rw [parentsFail_none (by decide)] at hpf
    cases hpf
  subst hr
  have hstored : s'.map (str "a") = some (some (.array false [])) := by
    rw [(hout.ok s' hst).2.map]
    dsimp only
    rw [if_pos rfl, Arg.written, trunc, List.length_replicate, Nat.mod_self]
    rfl
  refine ⟨s₀, s', hreach, hst, hstored, fun hw => ?_⟩
  have hread := hw.read (2 ^ 32)
  rw [getter_stored (hout.grown _ s' hst).inv hstored, if_neg (by decide), if_neg (by decide), if_neg] at hread
  · have hval := Except.ok.inj (Option.some.inj hread)
    have hlen := congrArg List.length (Value.array.inj hval).2
    rw [List.length_replicate] at hlen
    cases hlen
  · rw [Arg.value, Value.size, List.length_replicate]
    exact Nat.lt_irrefl _

end Nrappkit.Registry
