import Nrappkit.Registry.Arrays
import Nrappkit.Registry.ChildCount
/-!
# Listing children over RPC

`nr_reg_get_children_1_svc` keeps an array from one request to the next. When
the local listing refuses it, the request frees it, doubles the number of
elements and calls itself. The elements are set up in a loop over an `int`, so
an array of 2^31 elements is never finished. The client looks at the size of
its caller's array.

The call is assumed to succeed and XDR to carry the strings unchanged;
`fresh n` is what an array of `n` elements holds when it is allocated.
-/
open Lib Nrappkit.Assoc

namespace Nrappkit.Registry.Bytewise

/-! ## The server -/

/-- The static variables; `out_val[i]` points to `registries[i]`. -/
structure ChildrenStatic where
  registries : Option (List NR_registry) := none
  max_count : Nat := 32
  out_len : UInt32 := 0

section
variable (qsort : List NR_registry → List NR_registry) (fresh : Nat → Nat → NR_registry)

/-- The array at the start of a request. In the loop that sets up `out_val` the
`int i` overflows when there are too many elements. -/
def ChildrenStatic.allocated (st : ChildrenStatic) : Option (List NR_registry) :=
  match st.registries with
  | some registries => some registries
  | none => if st.max_count < 2 ^ 31 then some ((List.range st.max_count).map (fresh st.max_count)) else none

/-- The status sent, with `n` calls at most. -/
def nr_reg_get_children_1_svc (s : Reg) (parent : Bytes) : Nat → ChildrenStatic → Option (Status × ChildrenStatic)
  | 0, _ => none
  | n + 1, st =>
    match st.allocated fresh with
    | none => none
    | some registries =>
      match nr_reg_local_get_children qsort s parent registries st.max_count with
      | none => none
      | some (.ok length, registries) =>
        some (.ok, { st with registries := some registries, out_len := UInt32.ofNat length })
      | some (.error r, registries) =>
        if r ≠ .R_BAD_ARGS ∨ nr_reg_is_valid parent ≠ .ok then some (r, { st with registries := some registries })
        else
          -- the array is freed; `max_count` is far from the range of a `size_t`
          match nr_reg_get_children_1_svc s parent n { st with registries := none, max_count := st.max_count * 2 } with
          | none => none
          | some (retval, st) => if retval ≠ .ok then some (retval, st) else some (.ok, st)

/-- The strings sent: `out_len` of them. -/
def ChildrenStatic.out_val (st : ChildrenStatic) : List (Option Bytes) :=
  ((st.registries.getD []).take st.out_len.toNat).map NR_registry.string

end

/-! ## The client -/

/-- The length that is returned, and the array. -/
def nr_reg_get_children_1_clnt (retval : Status) (out_val : List Bytes) (data : List NR_registry) (size : Nat) :
    Option (Except Status Nat × List NR_registry) :=
  if retval ≠ .ok then some (.error retval, data)
  else if out_val.length > size then some (.error .R_BAD_ARGS, data)
  else if data.length < out_val.length then none
  else some (.ok out_val.length, filled data out_val ++ data.drop out_val.length)

/-- `NR_reg_get_children` in a client, with the server's `n` calls at most. A
string that is not terminated cannot be sent. -/
def remote_get_children (qsort : List NR_registry → List NR_registry) (fresh : Nat → Nat → NR_registry) (s : Reg)
    (parent : Bytes) (n : Nat) (st : ChildrenStatic) (data : List NR_registry) (size : Nat) :
    Option (Except Status Nat × List NR_registry) :=
  match nr_reg_get_children_1_svc qsort fresh s parent n st with
  | none => none
  | some (retval, st) => (st.out_val.mapM id).bind fun out_val => nr_reg_get_children_1_clnt retval out_val data size

/-! ## One request -/

/-- The static variables as requests leave them. -/
structure ChildrenStatic.Ok (st : ChildrenStatic) : Prop where
  two_le : 2 ≤ st.max_count
  lt : st.max_count < 2 ^ 31
  length : ∀ registries, st.registries = some registries → registries.length = st.max_count

theorem started_ok : ({} : ChildrenStatic).Ok := ⟨by decide, by decide, fun _ h => by cases h⟩

section
variable {qsort : List NR_registry → List NR_registry} {fresh : Nat → Nat → NR_registry} {s : Reg} {parent : Bytes}
  {st st' : ChildrenStatic}

theorem allocated_length (hst : ∀ registries, st.registries = some registries → registries.length = st.max_count)
    {registries : List NR_registry} (ha : st.allocated fresh = some registries) : registries.length = st.max_count := by
  unfold ChildrenStatic.allocated at ha
  split at ha
  · rename_i hold
    cases ha
    exact hst registries hold
  · split at ha
    · cases ha
      simp
    · cases ha

theorem allocated_some (fresh : Nat → Nat → NR_registry) (hmax : st.max_count < 2 ^ 31) :
    ∃ registries, st.allocated fresh = some registries := by
  unfold ChildrenStatic.allocated
  cases st.registries with
  | none => exact ⟨_, if_pos hmax⟩
  | some registries => exact ⟨_, rfl⟩

/-- A listing keeps the number of elements. -/
theorem get_children_length (h : RInv s) (hsort : Sorts qsort) {data data' : List NR_registry} {n : Nat}
    (hv : nr_reg_is_valid parent = .ok)
    (hget : nr_reg_local_get_children qsort s parent data data.length = some (.ok n, data')) :
    n = (child_names s parent).length ∧ data'.length = data.length := by
  rcases get_children_bytes h hsort hv data with ⟨hfits, heq⟩ | ⟨-, -, heq⟩ | ⟨-, -, data'', heq⟩
  · rw [heq] at hget
    cases hget
    refine ⟨rfl, ?_⟩
    have hle := length_of_fits hfits
    rw [List.length_append, (hsort.perm _).length_eq, filled_length data hle, List.length_drop]
    omega
  · rw [heq] at hget
    cases hget
  · rw [heq] at hget
    cases hget

/-- A request for a valid name that fits the array ends at once, and one that
does not calls itself with an array of twice the size. -/
theorem svc_step (h : RInv s) (hsort : Sorts qsort) (hv : nr_reg_is_valid parent = .ok)
    (hst : ∀ registries, st.registries = some registries → registries.length = st.max_count) (hpos : 0 < st.max_count)
    {registries : List NR_registry} (ha : st.allocated fresh = some registries) :
    ((child_names s parent).length < st.max_count ∧ ∃ registries', registries'.length = st.max_count ∧
      ∀ n, nr_reg_get_children_1_svc qsort fresh s parent (n + 1) st = some (.ok, { st with
        registries := some registries', out_len := UInt32.ofNat (child_names s parent).length })) ∨
    (st.max_count ≤ (child_names s parent).length ∧
      ∀ n, nr_reg_get_children_1_svc qsort fresh s parent (n + 1) st =
        nr_reg_get_children_1_svc qsort fresh s parent n { st with registries := none, max_count := st.max_count * 2 }) := by
  have hlen := allocated_length hst ha
  rw [← hlen] at hpos
  rcases get_children_bytes h hsort hv registries with ⟨hfits, heq⟩ | ⟨-, hnil, -⟩ | ⟨-, hle, data', heq⟩
  · have hlt : (child_names s parent).length < registries.length := by
      rcases hfits with hnil | hlt
      · simpa [hnil] using hpos
      · exact hlt
    left
    refine ⟨hlen ▸ hlt, _, hlen ▸ (get_children_length h hsort hv heq).2, fun n => ?_⟩
    rw [nr_reg_get_children_1_svc, ha]
    dsimp only
    rw [← hlen, heq]
  · simp [hnil] at hpos
  · right
    refine ⟨hlen ▸ hle, fun n => ?_⟩
    rw [nr_reg_get_children_1_svc, ha]
    dsimp only
    rw [← hlen, heq]
    dsimp only
    rw [if_neg (by simp [hv])]
    cases nr_reg_get_children_1_svc qsort fresh s parent n
        { st with registries := none, max_count := registries.length * 2 } with
    | none => rfl
    | some x =>
      obtain ⟨r, st'⟩ := x
      cases r <;> rfl

/-- A name that is not valid is refused with the array as it was. -/
theorem svc_invalid (hv : nr_reg_is_valid parent ≠ .ok) {registries : List NR_registry}
    (ha : st.allocated fresh = some registries) (n : Nat) :
    nr_reg_get_children_1_svc qsort fresh s parent (n + 1) st =
      some (.R_BAD_ARGS, { st with registries := some registries }) := by
  rw [nr_reg_get_children_1_svc, ha]
  dsimp only
  rw [nr_reg_local_get_children, if_pos hv, (is_valid_cases parent).resolve_left hv]
  dsimp only
  rw [if_pos (.inr (by simp))]

/-- The static variables between two calls of one request. -/
structure ChildrenStatic.Pre (st : ChildrenStatic) : Prop where
  two_le : 2 ≤ st.max_count
  block : ∀ registries, st.registries = some registries → registries.length = st.max_count ∧ st.max_count < 2 ^ 31

theorem ChildrenStatic.Ok.pre (h : st.Ok) : st.Pre := ⟨h.two_le, fun r hr => ⟨h.length r hr, h.lt⟩⟩

theorem ChildrenStatic.Pre.lt (h : st.Pre) {registries : List NR_registry}
    (ha : st.allocated fresh = some registries) : st.max_count < 2 ^ 31 := by
  unfold ChildrenStatic.allocated at ha
  split at ha
  · rename_i hold
    exact (h.block _ hold).2
  · split at ha
    · assumption
    · cases ha

theorem ChildrenStatic.Pre.doubled (h : st.Pre) :
    ({ st with registries := none, max_count := st.max_count * 2 } : ChildrenStatic).Pre := by
  have := h.two_le
  exact ⟨by dsimp only; omega, fun _ hr => by cases hr⟩

/-- A request that returns leaves the static variables in order, with no
smaller array. -/
theorem svc_ok (h : RInv s) (hsort : Sorts qsort) {n : Nat} (hst : st.Pre) {r : Status}
    (hret : nr_reg_get_children_1_svc qsort fresh s parent n st = some (r, st')) :
    st'.Ok ∧ st.max_count ≤ st'.max_count := by
  induction n generalizing st with
  | zero => cases hret
  | succ n ih =>
    cases ha : st.allocated fresh with
    | none =>
      rw [nr_reg_get_children_1_svc, ha] at hret
      cases hret
    | some registries =>
      have hlen : registries.length = st.max_count := allocated_length (fun r hr => (hst.block r hr).1) ha
      have hpos : 0 < st.max_count := Nat.lt_of_lt_of_le Nat.zero_lt_two hst.two_le
      by_cases hv : nr_reg_is_valid parent = .ok
      · rcases svc_step h hsort hv (fun r hr => (hst.block r hr).1) hpos ha with ⟨-, reg, hreg, heq⟩ | ⟨-, heq⟩
        · rw [heq] at hret
          cases hret
          refine ⟨⟨hst.two_le, hst.lt ha, ?_⟩, Nat.le_refl _⟩
          rintro _ ⟨⟩
          exact hreg
        · rw [heq] at hret
          obtain ⟨hok, hle⟩ := ih hst.doubled hret
          exact ⟨hok, by dsimp only at hle; omega⟩
      · rw [svc_invalid hv ha] at hret
        cases hret
        refine ⟨⟨hst.two_le, hst.lt ha, ?_⟩, Nat.le_refl _⟩
        rintro _ ⟨⟩
        exact hlen

/-- What a request for a valid name returns, if it does. -/
theorem svc_valid (h : RInv s) (hsort : Sorts qsort) (hv : nr_reg_is_valid parent = .ok) {n : Nat} (hst : st.Pre)
    {r : Status} (hret : nr_reg_get_children_1_svc qsort fresh s parent n st = some (r, st')) :
    r = .ok ∧ st'.out_len = UInt32.ofNat (child_names s parent).length ∧ ∃ registries,
      st'.registries = some registries ∧ (child_names s parent).length < registries.length ∧
      registries.length < 2 ^ 31 := by
  induction n generalizing st with
  | zero => cases hret
  | succ n ih =>
    cases ha : st.allocated fresh with
    | none =>
      rw [nr_reg_get_children_1_svc, ha] at hret
      cases hret
    | some registries =>
      have hpos : 0 < st.max_count := Nat.lt_of_lt_of_le Nat.zero_lt_two hst.two_le
      rcases svc_step h hsort hv (fun r hr => (hst.block r hr).1) hpos ha with ⟨hfits, reg, hreg, heq⟩ | ⟨-, heq⟩
      · rw [heq] at hret
        cases hret
        exact ⟨rfl, rfl, reg, rfl, hreg ▸ hfits, hreg ▸ hst.lt ha⟩
      · rw [heq] at hret
        exact ih hst.doubled hret

/-- Doubling stops at an array that is large enough. -/
theorem svc_serves (h : RInv s) (hsort : Sorts qsort) (hv : nr_reg_is_valid parent = .ok) {k : Nat} (hst : st.Pre)
    (hk : (child_names s parent).length < st.max_count * 2 ^ k) (hlt : st.max_count * 2 ^ k < 2 ^ 31) :
    ∃ st', (∀ n ≥ k + 1, nr_reg_get_children_1_svc qsort fresh s parent n st = some (.ok, st')) ∧
      st'.out_len = UInt32.ofNat (child_names s parent).length := by
  have hpos : 0 < st.max_count := Nat.lt_of_lt_of_le Nat.zero_lt_two hst.two_le
  have hmax : st.max_count < 2 ^ 31 := Nat.lt_of_le_of_lt (Nat.le_mul_of_pos_right _ (Nat.two_pow_pos k)) hlt
  obtain ⟨registries, ha⟩ := allocated_some fresh hmax
  induction k generalizing st registries with
  | zero =>
    rcases svc_step h hsort hv (fun r hr => (hst.block r hr).1) hpos ha with ⟨-, reg, -, heq⟩ | ⟨hle, -⟩
    · refine ⟨{ st with registries := some reg, out_len := UInt32.ofNat (child_names s parent).length },
        fun n hn => ?_, rfl⟩
      obtain ⟨m, rfl⟩ : ∃ m, n = m + 1 := ⟨n - 1, by omega⟩
      exact heq m
    · omega
  | succ k ih =>
    rcases svc_step h hsort hv (fun r hr => (hst.block r hr).1) hpos ha with ⟨-, reg, -, heq⟩ | ⟨-, heq⟩
    · refine ⟨{ st with registries := some reg, out_len := UInt32.ofNat (child_names s parent).length },
        fun n hn => ?_, rfl⟩
      obtain ⟨m, rfl⟩ : ∃ m, n = m + 1 := ⟨n - 1, by omega⟩
      exact heq m
    · rw [Nat.pow_succ', ← Nat.mul_assoc] at hk hlt
      have hmax' : st.max_count * 2 < 2 ^ 31 :=
        Nat.lt_of_le_of_lt (Nat.le_mul_of_pos_right _ (Nat.two_pow_pos k)) hlt
      obtain ⟨st', hret, hout⟩ := ih hst.doubled hk hlt (Nat.mul_pos hpos Nat.zero_lt_two) hmax' _ (if_pos hmax')
      refine ⟨st', fun n hn => ?_, hout⟩
      obtain ⟨m, rfl⟩ : ∃ m, n = m + 1 := ⟨n - 1, by omega⟩
      rw [heq]
      exact hret m (by omega)

/-- When no array between the number of children and 2^31 can be reached, the
request does not return. -/
theorem svc_stuck (h : RInv s) (hsort : Sorts qsort) (hv : nr_reg_is_valid parent = .ok) (hst : st.Pre)
    (hno : ∀ k, (child_names s parent).length < st.max_count * 2 ^ k → 2 ^ 31 ≤ st.max_count * 2 ^ k) (n : Nat) :
    nr_reg_get_children_1_svc qsort fresh s parent n st = none := by
  induction n generalizing st with
  | zero => rfl
  | succ n ih =>
    cases ha : st.allocated fresh with
    | none => rw [nr_reg_get_children_1_svc, ha]
    | some registries =>
      have hpos : 0 < st.max_count := Nat.lt_of_lt_of_le Nat.zero_lt_two hst.two_le
      have hlt := hst.lt ha
      rcases svc_step h hsort hv (fun r hr => (hst.block r hr).1) hpos ha with ⟨hfits, -⟩ | ⟨-, heq⟩
      · have hbig := hno 0 (by simpa using hfits)
        simp at hbig
        omega
      · rw [heq]
        refine ih hst.doubled fun k hk => ?_
        dsimp only at hk ⊢
        rw [Nat.mul_assoc, ← Nat.pow_succ'] at hk ⊢
        exact hno (k + 1) hk

/-! ## Every request -/

/-- The request ends with status 0 and the number of children, whatever number
of calls it is allowed from some number on. -/
def ServesChildren (qsort : List NR_registry → List NR_registry) (fresh : Nat → Nat → NR_registry) (s : Reg)
    (parent : Bytes) (st : ChildrenStatic) : Prop :=
  ∃ st' calls, (∀ n ≥ calls, nr_reg_get_children_1_svc qsort fresh s parent n st = some (.ok, st')) ∧
    st'.out_len.toNat = {n | Child parent n ∧ s.map n ≠ none}.ncard ∧ st.max_count ≤ st'.max_count

/-- The request returns an error and leaves the size of the array as it was. -/
def RefusesParent (qsort : List NR_registry → List NR_registry) (fresh : Nat → Nat → NR_registry) (s : Reg)
    (parent : Bytes) (st : ChildrenStatic) : Prop :=
  ∃ r st', (∀ n ≥ 1, nr_reg_get_children_1_svc qsort fresh s parent n st = some (r, st')) ∧ r ≠ .ok ∧
    st'.max_count = st.max_count ∧ ∀ registries, st'.registries = some registries → registries.length = st.max_count

/-- In every state of the registry and of the static variables, a request for a
valid name lists all children if and only if doubling the array goes past their
number before it reaches 2^31. Other names are refused, and every request that
returns leaves the static variables as the next one needs them, with no smaller
array. -/
theorem serves_children_iff (h : RInv s) (hsort : Sorts qsort) (hst : st.Ok) (parent : Bytes) :
    (nr_reg_is_valid parent = .ok → (ServesChildren qsort fresh s parent st ↔
      ∃ k, {n | Child parent n ∧ s.map n ≠ none}.ncard < st.max_count * 2 ^ k ∧ st.max_count * 2 ^ k < 2 ^ 31)) ∧
    (nr_reg_is_valid parent ≠ .ok → RefusesParent qsort fresh s parent st) ∧
    ∀ n r st', nr_reg_get_children_1_svc qsort fresh s parent n st = some (r, st') →
      st'.Ok ∧ st.max_count ≤ st'.max_count := by
  refine ⟨fun hv => ?_, fun hv => ?_, fun n r st' hret => svc_ok h hsort hst.pre hret⟩
  · rw [ncard_children h]
    constructor
    · rintro ⟨st', calls, hret, -⟩
      by_contra hno
      rw [not_exists] at hno
      -- with no power of two in reach every number of calls is too small
      have hstuck : nr_reg_get_children_1_svc qsort fresh s parent calls st = none := by
        refine svc_stuck h hsort hv hst.pre (fun k hk => ?_) calls
        by_contra hlt
        exact hno k ⟨hk, Nat.lt_of_not_le hlt⟩
      rw [hret calls (Nat.le_refl _)] at hstuck
      cases hstuck
    · rintro ⟨k, hk, hlt⟩
      obtain ⟨st', hret, hout⟩ := svc_serves h hsort hv hst.pre hk hlt
      refine ⟨st', k + 1, hret, ?_, (svc_ok h hsort hst.pre (hret _ (Nat.le_refl _))).2⟩
      rw [hout, ncard_children h, UInt32.toNat_ofNat', Nat.mod_eq_of_lt (by omega)]
  · obtain ⟨registries, ha⟩ := allocated_some fresh hst.lt
    refine ⟨.R_BAD_ARGS, { st with registries := some registries }, fun n hn => ?_, by simp, rfl, ?_⟩
    · obtain ⟨m, rfl⟩ : ∃ m, n = m + 1 := ⟨n - 1, by omega⟩
      exact svc_invalid hv ha m
    · rintro _ ⟨⟩
      exact allocated_length hst.length ha

/-! ## The caller's array -/

/-- The status and the length that a listing is to return for the size of the
array. -/
def listing (n size : Nat) : Except Status Nat := if n ≤ size then .ok n else .error .R_BAD_ARGS

/-- The local call writes no element behind the array and returns what the size
asks for, and so does the remote call whenever the server answers. -/
def RespectsCapacity (qsort : List NR_registry → List NR_registry) (s : Reg) (parent : Bytes) (data : List NR_registry) :
    Prop :=
  (∃ data', nr_reg_local_get_children qsort s parent data data.length =
    some (listing {n | Child parent n ∧ s.map n ≠ none}.ncard data.length, data')) ∧
  ∀ fresh st calls result data', st.Ok →
    remote_get_children qsort fresh s parent calls st data data.length = some (result, data') →
      result = listing {n | Child parent n ∧ s.map n ≠ none}.ncard data.length

theorem mapM_id_length {α : Type} {l : List (Option α)} {l' : List α} (h : l.mapM id = some l') :
    l'.length = l.length := by
  induction l generalizing l' with
  | nil =>
    cases h
    rfl
  | cons x l ih =>
    rw [List.mapM_cons] at h
    obtain ⟨a, -, h⟩ := Option.bind_eq_some_iff.1 h
    obtain ⟨as, has, h⟩ := Option.bind_eq_some_iff.1 h
    cases h
    rw [List.length_cons, List.length_cons, ih has]

theorem remote_listing (h : RInv s) (hsort : Sorts qsort) (hv : nr_reg_is_valid parent = .ok) (hst : st.Ok)
    {data data' : List NR_registry} {calls : Nat} {result : Except Status Nat}
    (hret : remote_get_children qsort fresh s parent calls st data data.length = some (result, data')) :
    result = listing (child_names s parent).length data.length := by
  unfold remote_get_children at hret
  cases hsvc : nr_reg_get_children_1_svc qsort fresh s parent calls st with
  | none =>
    rw [hsvc] at hret
    cases hret
  | some x =>
    obtain ⟨r, st'⟩ := x
    obtain ⟨rfl, hout, registries, hreg, hfits, hlt⟩ := svc_valid h hsort hv hst.pre hsvc
    rw [hsvc] at hret
    dsimp only at hret
    obtain ⟨out_val, hval, hclnt⟩ := Option.bind_eq_some_iff.1 hret
    -- As many strings are sent as the server has counted.
    have hlen : out_val.length = (child_names s parent).length := by
      have hcount : (UInt32.ofNat (child_names s parent).length).toNat = (child_names s parent).length := by
        rw [UInt32.toNat_ofNat', Nat.mod_eq_of_lt (by omega)]
      rw [mapM_id_length hval, ChildrenStatic.out_val, hreg, hout, hcount, Option.getD_some, List.length_map,
        List.length_take, Nat.min_eq_left (Nat.le_of_lt hfits)]
    unfold nr_reg_get_children_1_clnt at hclnt
    rw [if_neg (by simp), hlen] at hclnt
    unfold listing
    by_cases hle : (child_names s parent).length ≤ data.length
    · rw [if_neg (Nat.not_lt.2 hle), if_neg (Nat.not_lt.2 hle)] at hclnt
      cases hclnt
      rw [if_pos hle]
    · rw [if_pos (Nat.lt_of_not_le hle)] at hclnt
      cases hclnt
      rw [if_neg hle]

/-- For every size, a local listing does what the size asks for, and what the
remote one does, if and only if there is no child, or the array has room for
one and is not exactly filled. -/
theorem respects_capacity_iff (h : RInv s) (hsort : Sorts qsort) (hv : nr_reg_is_valid parent = .ok)
    {data : List NR_registry} :
    RespectsCapacity qsort s parent data ↔ {n | Child parent n ∧ s.map n ≠ none}.ncard = 0 ∨
      (data.length ≠ 0 ∧ {n | Child parent n ∧ s.map n ≠ none}.ncard ≠ data.length) := by
  have hlocal : RespectsCapacity qsort s parent data ↔ ∃ data', nr_reg_local_get_children qsort s parent data data.length =
      some (listing (child_names s parent).length data.length, data') := by
    unfold RespectsCapacity
    rw [ncard_children h]
    refine and_iff_left fun fresh st calls result data' hst hret => remote_listing h hsort hv hst hret
  rw [hlocal, ncard_children h]
  rcases get_children_bytes h hsort hv data with ⟨hfits, heq⟩ | ⟨hkids, hnil, heq⟩ | ⟨hdata, hle, data', heq⟩
  · have hle := length_of_fits hfits
    refine iff_of_true ⟨_, by rw [heq, listing, if_pos hle]⟩ ?_
    rcases hfits with hnil | hlt
    · simp [hnil]
    · exact .inr (by omega)
  · -- no room: the first child is written behind the array
    refine iff_of_false (by simp [heq]) ?_
    simp [hnil, hkids]
  · have hpos : 0 < data.length := List.length_pos_iff.2 hdata
    rw [heq]
    constructor
    · -- an array that is exactly filled is refused
      rintro ⟨data'', hret⟩
      refine .inr ⟨Nat.ne_of_gt hpos, fun hexact => ?_⟩
      rw [listing, if_pos (Nat.le_of_eq hexact)] at hret
      cases hret
    · intro hne
      refine ⟨data', ?_⟩
      rw [listing, if_neg (by omega)]

end

/-- Three children and an array that begins with two elements. -/
theorem serves_children_doubled :
    ∃ s, Reaches (fun _ => 0) Safe [(.set (str "foo.a") .registry, .ok), (.set (str "foo.b") .registry, .ok),
        (.set (str "foo.c") .registry, .ok)] s ∧
      ServesChildren sortTexts (fun _ _ => dirty) s (str "foo") { max_count := 2 } := by
  have hex : (trace (fun _ => 0) (fun s op => Safe s op) [.set (str "foo.a") .registry, .set (str "foo.b") .registry,
      .set (str "foo.c") .registry]).any (fun x => x.1 = [.ok, .ok, .ok] &&
        (child_names x.2 (str "foo")).length = 3) = true := by decide +kernel
  obtain ⟨⟨rs, s⟩, htr, hx⟩ := (Option.any_eq_true _ _).1 hex
  simp only [Bool.and_eq_true, decide_eq_true_eq] at hx
  obtain ⟨rfl, hthree⟩ := hx
  have hreach : Reaches (fun _ => 0) Safe _ s := (trace_reaches htr).mono fun _ _ h => of_decide_eq_true h
  have hst : ({ max_count := 2 } : ChildrenStatic).Ok := ⟨by decide, by decide, fun _ h => by cases h⟩
  refine ⟨s, hreach, ((serves_children_iff hreach.rinv sortTexts_sorts hst (str "foo")).1 (by decide)).2 ⟨1, ?_, ?_⟩⟩
  · rw [ncard_children hreach.rinv, hthree]
    decide
  · decide

/-- Two children and room for three. -/
theorem respects_capacity_room :
    ∃ s, Reaches (fun _ => 0) Safe [(.set (str "foo.a") .registry, .ok), (.set (str "foo.b") .registry, .ok)] s ∧
      RespectsCapacity sortTexts s (str "foo") [dirty, dirty, dirty] := by
  have hex : (trace (fun _ => 0) (fun s op => Safe s op) [.set (str "foo.a") .registry, .set (str "foo.b") .registry]).any
      (fun x => x.1 = [.ok, .ok] && (child_names x.2 (str "foo")).length = 2) = true := by decide +kernel
  obtain ⟨⟨rs, s⟩, htr, hx⟩ := (Option.any_eq_true _ _).1 hex
  simp only [Bool.and_eq_true, decide_eq_true_eq] at hx
  obtain ⟨rfl, htwo⟩ := hx
  have hreach : Reaches (fun _ => 0) Safe _ s := (trace_reaches htr).mono fun _ _ h => of_decide_eq_true h
  refine ⟨s, hreach, (respects_capacity_iff hreach.rinv sortTexts_sorts (by decide)).2 (.inr ⟨by decide, ?_⟩)⟩
  rw [ncard_children hreach.rinv, htwo]
  decide

/-- One child and room for one: the local call refuses what the remote one
returns. Without room the local call writes behind the array. -/
theorem capacity_exact_fit :
    ∃ s data', Reaches (fun _ => 0) Safe [(.set (str "foo.a") .registry, .ok)] s ∧
      nr_reg_local_get_children sortTexts s (str "foo") [dirty] 1 = some (.error .R_BAD_ARGS, data') ∧
      (∃ data'', remote_get_children sortTexts (fun _ _ => NR_registry.zeroed) s (str "foo") 1 {} [dirty] 1 =
        some (.ok 1, data'')) ∧
      nr_reg_local_get_children sortTexts s (str "foo") [] 0 = none ∧
      ¬ RespectsCapacity sortTexts s (str "foo") [dirty] ∧ ¬ RespectsCapacity sortTexts s (str "foo") [] := by
  have hex : (trace (fun _ => 0) (fun s op => Safe s op) [.set (str "foo.a") .registry]).any (fun x => x.1 = [.ok] &&
      (child_names x.2 (str "foo")).length = 1 &&
      (nr_reg_local_get_children sortTexts x.2 (str "foo") [dirty] 1).any (fun y => y.1 = .error .R_BAD_ARGS) &&
      (remote_get_children sortTexts (fun _ _ => NR_registry.zeroed) x.2 (str "foo") 1 {} [dirty] 1).any
        (fun y => y.1 = .ok 1) &&
      (nr_reg_local_get_children sortTexts x.2 (str "foo") [] 0).isNone) = true := by decide +kernel
  obtain ⟨⟨rs, s⟩, htr, hx⟩ := (Option.any_eq_true _ _).1 hex
  simp only [Bool.and_eq_true, decide_eq_true_eq, Option.any_eq_true, Option.isNone_iff_eq_none] at hx
  obtain ⟨⟨⟨⟨rfl, hone⟩, ⟨r₁, data'⟩, hlocal, hr₁⟩, ⟨r₂, data''⟩, hremote, hr₂⟩, hnone⟩ := hx
  dsimp only at hr₁ hr₂
  subst hr₁ hr₂
  have hreach : Reaches (fun _ => 0) Safe _ s := (trace_reaches htr).mono fun _ _ h => of_decide_eq_true h
  refine ⟨s, data', hreach, hlocal, ⟨data'', hremote⟩, hnone, ?_, ?_⟩
  · rintro ⟨⟨data₁, hok⟩, -⟩
    rw [ncard_children hreach.rinv, hone, List.length_singleton, hlocal] at hok
    cases hok
  · rintro ⟨⟨data₁, hok⟩, -⟩
    rw [List.length_nil, hnone] at hok
    cases hok

/-- With 2^30 children the server that was just started needs an array of 2^31
elements. -/
theorem serves_children_stuck :
    ∃ s, Reaches (fun _ => 0) Safe (manyChildren 30 (2 ^ 30)) s ∧ nr_reg_is_valid [] = .ok ∧
      (child_names s []).length = 2 ^ 30 ∧
      (∀ n, nr_reg_get_children_1_svc sortTexts (fun _ _ => dirty) s [] n {} = none) ∧
      ¬ ServesChildren sortTexts (fun _ _ => dirty) s [] {} := by
  obtain ⟨s, hreach, hmem⟩ := manyChildren_run (show 0 < 30 by decide) (by decide) (2 ^ 30) (Nat.le_refl _)
  obtain ⟨hlen, -⟩ := manyChildren_length (by decide) (Nat.le_refl _) hreach.rinv hmem
  have hstuck : ∀ n, nr_reg_get_children_1_svc sortTexts (fun _ _ => dirty) s [] n {} = none := by
    refine svc_stuck hreach.rinv sortTexts_sorts rfl started_ok.pre fun k hk => ?_
    have hpow : 32 * 2 ^ k = 2 ^ (5 + k) := by rw [Nat.pow_add]
    rw [hlen] at hk
    dsimp only at hk ⊢
    rw [hpow] at hk ⊢
    have hexp : 30 < 5 + k := (Nat.pow_lt_pow_iff_right (by decide)).1 hk
    exact Nat.pow_le_pow_right (by decide) hexp
  refine ⟨s, hreach, rfl, hlen, hstuck, ?_⟩
  rintro ⟨st', calls, hret, -⟩
  have := hret calls (Nat.le_refl _)
  rw [hstuck] at this
  cases this

end Nrappkit.Registry.Bytewise
