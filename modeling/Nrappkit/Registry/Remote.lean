import Nrappkit.Registry.LocalReads
/-!
# Reading arrays over RPC

The server's side of a read is in `regrpc_server.c`: it keeps a buffer for each
of the two types from one request to the next and makes it larger when the local
registry refuses it. The client's side in `regrpc_client.c` looks at the size
of the caller's buffer. A byte of a buffer that was never written is `none`.

The call is assumed to succeed and XDR to carry a result unchanged: the bytes
that are counted, and a string up to its terminator.
-/
open Lib Nrappkit.Assoc

namespace Nrappkit.Registry

abbrev Block := List (Option UInt8)

/-- The static variables of a request. -/
structure Static where
  out : Option Block := none
  maxlen : Nat := 32

/-- The buffer, which the first request allocates. -/
def Static.block (st : Static) : Block := st.out.getD (List.replicate st.maxlen none)

/-- Copying behind the end of a block is undefined. -/
def memcpy (block : Block) (content : Bytes) : Option Block :=
  if content.length ≤ block.length then some (content.map some ++ block.drop content.length) else none

/-- The string at the start of a block. -/
def stringAt : Block → Option Bytes
  | some c :: block => if c = 0 then some [] else (stringAt block).map (c :: ·)
  | _ => none

/-! ## The server -/

/-- What `RREALLOC` leaves, when the length calls for it. -/
def grow (block : Block) (maxlen len : Nat) : Block × Nat :=
  if len ≥ maxlen then (block.take (len + 2) ++ List.replicate (len + 2 - block.length) none, len + 2)
  else (block, maxlen)

def maybe_adjust_ptr (s : Reg) (name : Bytes) (block : Block) (maxlen : Nat) : Option (Except Status (Block × Nat)) :=
  (nr_reg_local_get_length s name).map fun
    | .ok len => .ok (grow block maxlen len)
    | .error .R_NOT_FOUND => .ok (grow block maxlen (maxlen + 1))
    | .error r => .error r

/-- What the two requests have in common: the length that was read. -/
def svc_get_array (s : Reg) (name : Bytes) (string : Bool) (st : Static) : Option (Except Status Nat × Static) :=
  let block := st.block
  match nr_reg_get_array s name string st.maxlen with
  | none => none
  | some (.ok data) => (memcpy block data).map fun block => (.ok data.length, { st with out := some block })
  | some (.error .R_BAD_ARGS) =>
    match maybe_adjust_ptr s name block st.maxlen with
    | none => none
    | some (.error r) => some (.error r, { st with out := some block })
    | some (.ok (block, maxlen)) =>
      match nr_reg_get_array s name string maxlen with
      | none => none
      | some (.error r) => some (.error r, { out := some block, maxlen })
      | some (.ok data) => (memcpy block data).map fun block => (.ok data.length, { out := some block, maxlen })
  | some (.error r) => some (.error r, { st with out := some block })

/-- The result that is sent; `out_len` is an `unsigned int`. -/
def nr_reg_get_bytes_1_svc (s : Reg) (name : Bytes) (st : Static) : Option (Except Status Block × Static) :=
  (svc_get_array s name false st).map fun (r, st) => (r.map fun len => (st.out.getD []).take (len % 2 ^ 32), st)

def nr_reg_get_string_1_svc (s : Reg) (name : Bytes) (st : Static) : Option (Except Status Block × Static) :=
  (svc_get_array s name true st).map fun (r, st) => (r.map fun _ => st.out.getD [], st)

/-! ## The client -/

/-- The bytes that arrive in `data`. -/
def nr_reg_get_bytes_1_clnt (result : Except Status Block) (size : Nat) : Option (Except Status Bytes) :=
  match result with
  | .error r => some (.error r)
  | .ok out => (out.mapM id).map fun out => if out.length > size then .error .R_BAD_ARGS else .ok out

/-- The string that arrives, with its terminator; `strncpy` fills the rest of
the buffer with zeros. -/
def nr_reg_get_string_1_clnt (result : Except Status Block) (size : Nat) : Option (Except Status Bytes) :=
  match result with
  | .error r => some (.error r)
  | .ok out => (stringAt out).map fun out => if out.length ≥ size then .error .R_BAD_ARGS else .ok (out ++ [0])

/-! ## Requests -/

/-- The registry in the server, and its buffers. -/
structure Server where
  reg : Reg
  bytes : Static
  string : Static

inductive Request where
  /-- A request that changes the registry, or a call in the server itself. -/
  | change (op : RegOp)
  | get_bytes (name : Bytes)
  | get_string (name : Bytes)

inductive Reply where
  | status (r : Status)
  | result (r : Except Status Block)

def serve (beh : nr_reg_cb_info → UInt8) (sv : Server) : Request → Option (Reply × Server)
  | .change op => (regStep beh sv.reg op).map fun (r, reg) => (.status r, { sv with reg })
  | .get_bytes name => (nr_reg_get_bytes_1_svc sv.reg name sv.bytes).map fun (r, bytes) => (.result r, { sv with bytes })
  | .get_string name =>
    (nr_reg_get_string_1_svc sv.reg name sv.string).map fun (r, string) => (.result r, { sv with string })

/-- A server that was just started. -/
def Server.Started (beh : nr_reg_cb_info → UInt8) (sv : Server) : Prop :=
  nr_reg_local_init beh = some (.ok, sv.reg) ∧ sv.bytes = {} ∧ sv.string = {}

/-- `NR_reg_get_bytes` in a client. -/
def remote_get_bytes (sv : Server) (name : Bytes) (size : Nat) : Option (Except Status Bytes) :=
  (nr_reg_get_bytes_1_svc sv.reg name sv.bytes).bind fun r => nr_reg_get_bytes_1_clnt r.1 size

/-- `NR_reg_get_string` in a client. -/
def remote_get_string (sv : Server) (name : Bytes) (size : Nat) : Option (Except Status Bytes) :=
  (nr_reg_get_string_1_svc sv.reg name sv.string).bind fun r => nr_reg_get_string_1_clnt r.1 size

/-! ## One request -/

/-- The block is as long as the server takes it to be. -/
def Static.Ok (st : Static) : Prop := ∀ block, st.out = some block → block.length = st.maxlen

section
variable {s : Reg} {name : Bytes} {string : Bool} {st : Static}

theorem memcpy_fits {block : Block} {content : Bytes} (h : content.length ≤ block.length) :
    ∃ rest, memcpy block content = some (content.map some ++ rest) ∧
      (content.map some ++ rest).length = block.length := by
  refine ⟨block.drop content.length, if_pos h, ?_⟩
  rw [List.length_append, List.length_map, List.length_drop]
  omega

theorem grow_length {block : Block} {maxlen len : Nat} (h : block.length = maxlen) :
    (grow block maxlen len).1.length = (grow block maxlen len).2 := by
  unfold grow
  split
  · rw [List.length_append, List.length_take, List.length_replicate]
    omega
  · exact h

theorem len_lt_grow (block : Block) (maxlen len : Nat) : len < (grow block maxlen len).2 := by
  unfold grow
  split
  · exact Nat.lt_add_of_pos_right (by decide)
  · rename_i h
    exact Nat.lt_of_not_le h

theorem Static.Ok.block_length (h : st.Ok) : st.block.length = st.maxlen := by
  unfold Static.block
  cases hout : st.out with
  | none => exact List.length_replicate
  | some block => exact h block hout

theorem length_le_compute (name : Bytes) (string : Bool) (length : UInt32) (data : Bytes) :
    length.toNat ≤ nr_reg_compute_length name (.array string length data) + 1 := by
  cases string with
  | false => exact Nat.le_succ _
  | true =>
    show length.toNat ≤ (length - 1).toNat + 1
    rcases Nat.eq_zero_or_pos length.toNat with h0 | hpos
    · omega
    · have hone : (1 : UInt32) ≤ length := UInt32.le_iff_toNat_le.2 hpos
      have h1 : (1 : UInt32).toNat = 1 := rfl
      rw [UInt32.toNat_sub_of_le _ _ hone, h1]
      omega

/-- What a local read does with buffers of every size: it is undefined, it
returns an error that has nothing to do with the size, or it finds content. -/
theorem get_array_cases (h : RInv s) (name : Bytes) (string : Bool) :
    ((∀ size, nr_reg_get_array s name string size = none) ∧ ∀ c, s.map name ≠ some (some (.array string c))) ∨
    (∃ r, (∀ size, nr_reg_get_array s name string size = some (.error r)) ∧
      (r = .R_BAD_ARGS → nr_reg_local_get_length s name = some (.error .R_BAD_ARGS)) ∧
      ∀ c, s.map name ≠ some (some (.array string c))) ∨
    (∃ content len, s.map name = some (some (.array string content)) ∧
      (∀ size, nr_reg_get_array s name string size =
        some (if size < content.length then .error .R_BAD_ARGS else .ok content)) ∧
      nr_reg_local_get_length s name = some (.ok len) ∧ content.length ≤ len + 1 ∧ content.length < 2 ^ 32) := by
  by_cases hv : nr_reg_is_valid name = .ok
  · cases hp : s.ptr name with
    | none =>
      refine .inr (.inl ⟨.R_NOT_FOUND, fun size => ?_, by simp, by simp [Reg.map, hp]⟩)
      unfold nr_reg_get_array
      rw [h.fetch_node hv, hp]
    | some p =>
      cases hn : s.nodes p with
      | none =>
        refine .inl ⟨fun size => ?_, by simp [Reg.map, hp, hn]⟩
        unfold nr_reg_get_array
        rw [h.fetch_node hv, hp]
        simp [hn]
      | some node =>
        have hmap : s.map name = some (some node.value) := by rw [Reg.map, hp, Option.map_some, hn, Option.map_some]
        by_cases ht : node.type = arrayType string
        · cases node with
          | scalar v => cases string <;> cases v <;> cases ht
          | registry => cases string <;> cases ht
          | array string' length data =>
            obtain rfl : string' = string := by cases string <;> cases string' <;> first | rfl | cases ht
            have hok : length.toNat ≤ data.length := h.block p _ length data hn
            have hlen : (data.take length.toNat).length = length.toNat := by
              rw [List.length_take]
              exact Nat.min_eq_left hok
            refine .inr (.inr ⟨data.take length.toNat, _, hmap, fun size => ?_, get_length_stored h hp hn, ?_, ?_⟩)
            · unfold nr_reg_get_array
              rw [fetch_stored h hp hn, if_neg (by simp [ht]), hlen]
              dsimp only
              split
              · rfl
              · rfl
            · rw [hlen]
              exact length_le_compute name _ length data
            · rw [hlen]
              exact length.toNat_lt
        · refine .inr (.inl ⟨.R_FAILED, fun size => ?_, by simp, fun c hc => ht ?_⟩)
          · unfold nr_reg_get_array
            rw [fetch_stored h hp hn, if_pos ht]
          · rw [hmap] at hc
            rw [← Node.value_type, Option.some.inj (Option.some.inj hc)]
            rfl
  · refine .inr (.inl ⟨.R_BAD_ARGS, fun size => ?_, fun _ => ?_, fun c hc => ?_⟩)
    · unfold nr_reg_get_array
      rw [fetch_node_invalid hv, (is_valid_cases name).resolve_left hv]
    · unfold nr_reg_local_get_length
      rw [if_pos hv, (is_valid_cases name).resolve_left hv]
    · obtain ⟨p, hp, -⟩ := Option.map_eq_some_iff.1 hc
      exact hv (h.ptr_some hp).2.2

/-- A request reads what a local read into a buffer that is large enough does,
whatever the buffer was, and leaves a buffer of the right length. -/
theorem svc_get_array_spec (h : RInv s) (hst : st.Ok) (name : Bytes) (string : Bool) :
    ((∀ size, nr_reg_get_array s name string size = none) ∧ (∀ c, s.map name ≠ some (some (.array string c))) ∧
      svc_get_array s name string st = none) ∨
    (∃ r st', (∀ size, nr_reg_get_array s name string size = some (.error r)) ∧
      (∀ c, s.map name ≠ some (some (.array string c))) ∧
      svc_get_array s name string st = some (.error r, st') ∧ st'.Ok) ∨
    (∃ content rest st', s.map name = some (some (.array string content)) ∧ content.length < 2 ^ 32 ∧
      (∀ size, nr_reg_get_array s name string size =
        some (if size < content.length then .error .R_BAD_ARGS else .ok content)) ∧
      svc_get_array s name string st = some (.ok content.length, st') ∧ st'.Ok ∧
      st'.out = some (content.map some ++ rest)) := by
  have hblock := hst.block_length
  rcases get_array_cases h name string with ⟨hnone, hmap⟩ | ⟨r, herr, hlen, hmap⟩ |
    ⟨content, len, hmap, hget, hlen, hle, hlt⟩
  · refine .inl ⟨hnone, hmap, ?_⟩
    unfold svc_get_array
    rw [hnone]
  · have hkeep : ∀ {block : Block}, block.length = st.maxlen → ({ st with out := some block } : Static).Ok := by
      rintro block hb _ ⟨⟩
      exact hb
    refine .inr (.inl ⟨r, { st with out := some st.block }, herr, hmap, ?_,
      hkeep hblock⟩)
    unfold svc_get_array
    rw [herr]
    by_cases hbad : r = .R_BAD_ARGS
    · subst hbad
      dsimp only
      rw [maybe_adjust_ptr, hlen rfl]
      rfl
    · dsimp only
      split <;> simp_all
  · refine .inr (.inr ?_)
    by_cases hfit : st.maxlen < content.length
    · have hfit' : content.length ≤ (grow st.block st.maxlen len).2 := by
        have := len_lt_grow st.block st.maxlen len
        omega
      obtain ⟨rest, hcopy, hlength⟩ := memcpy_fits (by rw [grow_length hblock]; exact hfit')
      refine ⟨content, rest, { out := some (content.map some ++ rest), maxlen := (grow st.block st.maxlen len).2 }, hmap, hlt,
        hget, ?_, ?_, rfl⟩
      · unfold svc_get_array
        rw [hget, if_pos hfit]
        dsimp only
        rw [maybe_adjust_ptr, hlen, Option.map_some]
        dsimp only
        rw [hget, if_neg (Nat.not_lt.2 hfit')]
        dsimp only
        rw [hcopy]
        rfl
      · rintro block ⟨⟩
        rw [hlength]
        exact grow_length hblock
    · have hfit' : content.length ≤ st.block.length := by
        rw [hblock]
        exact Nat.not_lt.1 hfit
      obtain ⟨rest, hcopy, hlength⟩ := memcpy_fits hfit'
      refine ⟨content, rest, { st with out := some (content.map some ++ rest) }, hmap, hlt, hget, ?_, ?_, rfl⟩
      · unfold svc_get_array
        rw [hget, if_neg hfit]
        dsimp only
        rw [hcopy]
        rfl
      · rintro block ⟨⟩
        rw [hlength]
        exact hblock

end

/-! ## Every request -/

/-- What holds of the server between requests. -/
structure Server.Ok (sv : Server) : Prop where
  reg : RInv sv.reg
  bytes : sv.bytes.Ok
  string : sv.string.Ok

section
variable {beh : nr_reg_cb_info → UInt8} {sv sv₀ : Server}

theorem svc_get_array_keeps {s : Reg} {name : Bytes} {string : Bool} {st st' : Static} {r : Except Status Nat} (h : RInv s)
    (hst : st.Ok) (hs : svc_get_array s name string st = some (r, st')) : st'.Ok := by
  rcases svc_get_array_spec h hst name string with ⟨-, -, hn⟩ | ⟨_, st₁, -, -, he, hok⟩ | ⟨_, _, st₁, -, -, -, he, hok, -⟩
  · rw [hn] at hs
    cases hs
  · rw [he] at hs
    cases hs
    exact hok
  · rw [he] at hs
    cases hs
    exact hok

theorem Server.Ok.step (h : sv.Ok) {req : Request} {r : Reply} {sv' : Server} (hs : serve beh sv req = some (r, sv')) :
    sv'.Ok := by
  cases req with
  | change op =>
    obtain ⟨⟨r₁, reg⟩, hst, heq⟩ := Option.map_eq_some_iff.1 hs
    cases heq
    exact ⟨step_rinv h.reg hst, h.bytes, h.string⟩
  | get_bytes name =>
    obtain ⟨x, hst, heq⟩ := Option.map_eq_some_iff.1 hs
    obtain ⟨y, hget, rfl⟩ := Option.map_eq_some_iff.1 hst
    cases heq
    exact ⟨h.reg, svc_get_array_keeps h.reg h.bytes hget, h.string⟩
  | get_string name =>
    obtain ⟨x, hst, heq⟩ := Option.map_eq_some_iff.1 hs
    obtain ⟨y, hget, rfl⟩ := Option.map_eq_some_iff.1 hst
    cases heq
    exact ⟨h.reg, h.bytes, svc_get_array_keeps h.reg h.string hget⟩

theorem server_ok {evs : List (Request × Reply)} (h₀ : sv₀.Started beh)
    (hrun : Run (serve beh) (fun _ _ => True) sv₀ evs sv) : sv.Ok := by
  obtain ⟨hi, hb, hstr⟩ := h₀
  have hfresh : ({} : Static).Ok := by rintro _ ⟨⟩
  exact hrun.inv Server.Ok ⟨(init_spec hi).1, hb ▸ hfresh, hstr ▸ hfresh⟩ fun _ _ _ _ hs _ hst => hs.step hst

/-- Every state of the local registry is one of the server. -/
theorem serve_changes {ok : Reg → RegOp → Prop} {s₀ s : Reg} {evs : List (RegOp × Status)} (bytes string : Static)
    (h : Run (regStep beh) ok s₀ evs s) :
    ∃ evs', Run (serve beh) (fun _ _ => True) ⟨s₀, bytes, string⟩ evs' ⟨s, bytes, string⟩ := by
  induction h with
  | nil => exact ⟨_, .nil⟩
  | @snoc evs s op r s' _ _ hst ih =>
    obtain ⟨evs', hrun⟩ := ih
    have hserve : serve beh ⟨s, bytes, string⟩ (.change op) = some (.status r, ⟨s', bytes, string⟩) := by
      simp only [serve, hst, Option.map_some]
    exact ⟨_, hrun.snoc trivial hserve⟩

/-- Bytes that were all written. -/
theorem mapM_some (content : Bytes) : (content.map some).mapM id = some content := by
  induction content with
  | nil => rfl
  | cons c content ih => simp [List.mapM_cons, ih]

theorem remote_bytes (h : sv.Ok) (name : Bytes) (size : Nat) :
    remote_get_bytes sv name size = nr_reg_local_get_bytes sv.reg name size := by
  unfold remote_get_bytes nr_reg_get_bytes_1_svc nr_reg_local_get_bytes
  rcases svc_get_array_spec h.reg h.bytes name false with ⟨hnone, -, hn⟩ | ⟨r, st₁, herr, -, he, -⟩ |
    ⟨content, rest, st₁, -, hlt, hget, he, -, hout⟩
  · rw [hnone, hn]
    rfl
  · rw [herr, he]
    rfl
  · rw [hget, he, Option.map_some, Option.bind_some]
    dsimp only [Except.map]
    have hsent : (st₁.out.getD []).take (content.length % 2 ^ 32) = content.map some := by
      rw [hout, Nat.mod_eq_of_lt hlt]
      exact List.take_left' (List.length_map _)
    rw [hsent, nr_reg_get_bytes_1_clnt, mapM_some, Option.map_some]

/-- A string that has its terminator. -/
theorem stringAt_terminated {b : Bytes} (h0 : 0 ∉ b) (rest : Block) : stringAt ((b ++ [0]).map some ++ rest) = some b := by
  induction b with
  | nil => rfl
  | cons c b ih =>
    rw [List.mem_cons, not_or] at h0
    show (if c = 0 then some [] else (stringAt ((b ++ [0]).map some ++ rest)).map (c :: ·)) = _
    rw [if_neg (Ne.symm h0.1), ih h0.2]
    rfl

theorem stringAt_no_zero {block : Block} {b : Bytes} (h : stringAt block = some b) : 0 ∉ b := by
  induction block generalizing b with
  | nil => cases h
  | cons c block ih =>
    cases c with
    | none => cases h
    | some c =>
      rw [stringAt] at h
      split at h
      · cases h
        exact List.not_mem_nil
      · rename_i hc
        obtain ⟨b', hb', rfl⟩ := Option.map_eq_some_iff.1 h
        rw [List.mem_cons, not_or]
        exact ⟨Ne.symm hc, ih hb'⟩

/-- The string that is stored under the name, if there is one, has its
terminator, and no other. -/
def Terminated (s : Reg) (name : Bytes) : Prop :=
  ∀ content, s.map name = some (some (.array true content)) → ∃ b, 0 ∉ b ∧ content = b ++ [0]

theorem remote_string (h : sv.Ok) (name : Bytes) :
    (∀ size, remote_get_string sv name size = nr_reg_local_get_string sv.reg name size) ↔ Terminated sv.reg name := by
  unfold remote_get_string nr_reg_get_string_1_svc nr_reg_local_get_string
  rcases svc_get_array_spec h.reg h.string name true with ⟨hnone, hmap, hn⟩ | ⟨r, st₁, herr, hmap, he, -⟩ |
    ⟨content, rest, st₁, hmap, hlt, hget, he, -, hout⟩
  · refine iff_of_true (fun size => ?_) fun c hc => absurd hc (hmap c)
    rw [hnone, hn]
    rfl
  · refine iff_of_true (fun size => ?_) fun c hc => absurd hc (hmap c)
    rw [herr, he]
    rfl
  · have hsent : st₁.out.getD [] = content.map some ++ rest := by
      rw [hout]
      rfl
    constructor
    · intro heq c hc
      rw [hmap] at hc
      cases hc
      -- a buffer that the content fits into
      have hread := heq content.length
      rw [hget, he, if_neg (Nat.lt_irrefl _), Option.map_some, Option.bind_some] at hread
      dsimp only [Except.map, nr_reg_get_string_1_clnt] at hread
      obtain ⟨b, hb, hread⟩ := Option.map_eq_some_iff.1 hread
      split at hread
      · cases hread
      · exact ⟨b, stringAt_no_zero hb, (Except.ok.inj hread).symm⟩
    · intro hterm size
      obtain ⟨b, h0, rfl⟩ := hterm content hmap
      rw [hget, he, Option.map_some, Option.bind_some]
      dsimp only [Except.map, nr_reg_get_string_1_clnt]
      rw [hsent, stringAt_terminated h0, Option.map_some, List.length_append, List.length_singleton]
      by_cases hsize : size < b.length + 1
      · rw [if_pos hsize, if_pos (by omega)]
      · rw [if_neg hsize, if_neg (by omega)]

/-- After every history of requests, and for every name: the two reads return
what the local ones do for every size of the client's buffer, exactly when the
string under the name still has its terminator. -/
theorem remote_reads_iff {evs : List (Request × Reply)} (h₀ : sv₀.Started beh)
    (hrun : Run (serve beh) (fun _ _ => True) sv₀ evs sv) (name : Bytes) :
    (∀ size, remote_get_bytes sv name size = nr_reg_local_get_bytes sv.reg name size ∧
      remote_get_string sv name size = nr_reg_local_get_string sv.reg name size) ↔ Terminated sv.reg name := by
  have h := server_ok h₀ hrun
  rw [← remote_string h]
  exact ⟨fun hall size => (hall size).2, fun hall size => ⟨remote_bytes h name size, hall size⟩⟩

end

/-- A string that is longer than the buffer has become. -/
theorem remote_reads_longer : ∃ evs sv sv₀, Server.Started (fun _ => 0) sv₀ ∧
    Run (serve fun _ => 0) (fun _ _ => True) sv₀ evs sv ∧ sv.string.maxlen = 42 ∧
    sv.reg.map (str "a.b") = some (some (.array true (List.replicate 50 97 ++ [0]))) ∧
    ∀ size, remote_get_string sv (str "a.b") size = nr_reg_local_get_string sv.reg (str "a.b") size := by
  have hex : ((nr_reg_local_init fun _ => 0).any fun x => x.1 = .ok && (exec (serve fun _ => 0) (fun _ _ => true)
      ⟨x.2, {}, {}⟩ [.change (.set (str "a.b") (.string (List.replicate 40 97))), .get_string (str "a.b"),
        .change (.set (str "a.b") (.string (List.replicate 50 97)))]).any fun y => y.2.string.maxlen = 42 &&
      y.2.reg.map (str "a.b") = some (some (.array true (List.replicate 50 97 ++ [0])))) = true := by decide +kernel
  obtain ⟨⟨r, s₀⟩, hi, hx⟩ := (Option.any_eq_true _ _).1 hex
  simp only [Bool.and_eq_true, decide_eq_true_eq] at hx
  obtain ⟨rfl, hy⟩ := hx
  obtain ⟨⟨rs, sv⟩, hrun, hy⟩ := (Option.any_eq_true _ _).1 hy
  simp only [Bool.and_eq_true, decide_eq_true_eq] at hy
  have hrun : Run (serve fun _ => 0) (fun _ _ => True) _ _ sv := (Run.exec .nil hrun).mono fun _ _ _ => trivial
  have hterm : Terminated sv.reg (str "a.b") := by
    intro content hc
    rw [hy.2] at hc
    cases hc
    exact ⟨_, by decide, rfl⟩
  exact ⟨_, sv, _, ⟨hi, rfl, rfl⟩, hrun, hy.1, hy.2, fun size => ((remote_reads_iff ⟨hi, rfl, rfl⟩ hrun _).2 hterm size).2⟩

/-- A string that was just set has its terminator exactly when its length with
it is below 2^32. -/
theorem set_string_terminated {beh : nr_reg_cb_info → UInt8} {evs : List (RegOp × Status)} {s s' : Reg} {name b : Bytes}
    (hrun : Reaches beh (fun _ _ => True) evs s) (hok : ∀ e ∈ evs, e.2 = .ok) (h0 : 0 ∉ b)
    (hst : set beh s name (.string b) = some (.ok, s')) : Terminated s' name ↔ b.length + 1 < 2 ^ 32 := by
  obtain ⟨-, ⟨old, -, hmap⟩, -⟩ := set_ok_map hrun.rinv (hrun.safe hok).tree hst
  have hlen : (b ++ [0]).length = b.length + 1 := List.length_append
  rw [← hlen, ← trunc_eq_self]
  constructor
  · intro hterm
    obtain ⟨b', h0', hb'⟩ := hterm _ hmap
    -- the only zero is the last byte
    have hpre : trunc (b ++ [0]) <+: b ++ [0] := List.take_prefix _ _
    rw [hb'] at hpre ⊢
    obtain ⟨t, ht⟩ := hpre
    have hidx : (b' ++ [0] ++ t).idxOf 0 = (b ++ [0]).idxOf 0 := by rw [ht]
    rw [List.append_assoc, List.idxOf_append_of_notMem h0', List.idxOf_append_of_notMem h0] at hidx
    simp only [List.cons_append, List.idxOf_cons_self, Nat.add_zero] at hidx
    have htl := congrArg List.length ht
    simp only [List.length_append, List.length_singleton] at htl
    have : t = [] := List.eq_nil_of_length_eq_zero (by omega)
    rw [← ht, this, List.append_nil]
  · intro htrunc content hc
    rw [hmap] at hc
    cases hc
    exact ⟨b, h0, htrunc⟩

/-- Where 2^32 - 1 bytes are set, nothing is stored, not even a terminator. -/
theorem set_longest {evs : List (RegOp × Status)} {s : Reg} (hrun : Reaches (fun _ => 0) (fun _ _ => True) evs s)
    (hok : ∀ e ∈ evs, e.2 = .ok) {name : Bytes} (hv : nr_reg_is_valid name = .ok) (hd : beforeLastDot name = none)
    (hmap : s.map name = none) : ∃ s', set (fun _ => 0) s name (.string (List.replicate (2 ^ 32 - 1) 97)) = some (.ok, s') ∧
      s'.map name = some (some (.array true [])) := by
  obtain ⟨r, s', hst⟩ := safe_run_returns (hrun.safe hok) (.set name (.string (List.replicate (2 ^ 32 - 1) 97)))
  have hout : Outcome s name _ (set (fun _ => 0) s name (.string (List.replicate (2 ^ 32 - 1) 97))) :=
    set_new hrun.rinv hv (map_none.1 hmap) _
  have hr : r = .ok := by
    by_contra hne
    have hpf := hout.fail r s' hst hne
    rw [parentsFail_none hd] at hpf
    cases hpf
  subst hr
  refine ⟨s', hst, ?_⟩
  rw [(hout.ok s' hst).2.map]
  dsimp only
  have hmod : (2 ^ 32 - 1 + 1) % 2 ^ 32 = 0 := by omega
  rw [if_pos rfl, Arg.written, trunc, List.length_append, List.length_replicate, List.length_singleton, hmod]
  rfl

/-- A string of 2^32 - 1 bytes is read as empty in the server and as the string
of the request before it in a client. -/
theorem remote_reads_stale : ∃ evs sv sv₀, Server.Started (fun _ => 0) sv₀ ∧
    Run (serve fun _ => 0) (fun _ _ => True) sv₀ evs sv ∧
    nr_reg_local_get_string sv.reg (str "a") 10 = some (.ok []) ∧
    remote_get_string sv (str "a") 10 = some (.ok (str "x" ++ [0])) := by
  have hex : (trace (fun _ => 0) (fun _ _ => true) [.set (str "b") (.string (str "x"))]).any (fun x => x.1 = [.ok] &&
      (x.2.map (str "b") = some (some (.array true (str "x" ++ [0]))) && (x.2.map (str "a")).isNone)) = true := by
    decide +kernel
  obtain ⟨⟨rs, s₁⟩, htr, hx⟩ := (Option.any_eq_true _ _).1 hex
  simp only [Bool.and_eq_true, decide_eq_true_eq, Option.isNone_iff_eq_none] at hx
  obtain ⟨rfl, hb, ha⟩ := hx
  have hreach : Reaches (fun _ => 0) (fun _ _ => True) _ s₁ := (trace_reaches htr).mono fun _ _ _ => trivial
  obtain ⟨s₂, hst, hstored⟩ := set_longest hreach (by simp) (by decide) (by decide) ha
  obtain ⟨s₀, hi, hrun⟩ := hreach
  obtain ⟨evs, hrun⟩ := serve_changes {} {} hrun
  have hinv := (server_ok ⟨hi, rfl, rfl⟩ hrun).reg
  -- the request for the short string leaves it in the buffer
  have hfresh : ({} : Static).Ok := by rintro _ ⟨⟩
  rcases svc_get_array_spec hinv hfresh (str "b") true with ⟨-, hno, -⟩ | ⟨_, _, -, hno, -⟩ |
    ⟨content, rest, st, hmap, -, -, hsvc, -, hout⟩
  · exact absurd hb (hno _)
  · exact absurd hb (hno _)
  · rw [hb] at hmap
    cases hmap
    have hget : serve (fun _ => 0) ⟨s₁, {}, {}⟩ (.get_string (str "b")) = some (.result (.ok (st.out.getD [])), ⟨s₁, {}, st⟩) := by
      simp only [serve, nr_reg_get_string_1_svc, hsvc, Option.map_some, Except.map]
    have hset : serve (fun _ => 0) ⟨s₁, {}, st⟩ (.change (.set (str "a") (.string (List.replicate (2 ^ 32 - 1) 97)))) =
        some (.status .ok, ⟨s₂, {}, st⟩) := by
      simp only [serve, regStep, hst, Option.map_some]
    have hrun₂ := (hrun.snoc trivial hget).snoc trivial hset
    have hinv₂ := (server_ok ⟨hi, rfl, rfl⟩ hrun₂).reg
    have hlocal : ∀ size, nr_reg_get_array s₂ (str "a") true size = some (.ok []) := by
      intro size
      rcases get_array_cases hinv₂ (str "a") true with ⟨-, hno⟩ | ⟨_, -, -, hno⟩ | ⟨content, len, hmap, hget, -⟩
      · exact absurd hstored (hno _)
      · exact absurd hstored (hno _)
      · rw [hstored] at hmap
        cases hmap
        exact hget size
    refine ⟨_, _, _, ⟨hi, rfl, rfl⟩, hrun₂, hlocal 10, ?_⟩
    have hblock : st.block = (str "x" ++ [0]).map some ++ rest := by rw [Static.block, hout]; rfl
    have hterm := stringAt_terminated (b := str "x") (by decide) rest
    have hsvc₂ : svc_get_array s₂ (str "a") true st = some (.ok 0, { st with out := some st.block }) := by
      simp [svc_get_array, hlocal, memcpy]
    simp only [remote_get_string, nr_reg_get_string_1_svc, hsvc₂, Option.map_some, Option.bind_some, Except.map,
      nr_reg_get_string_1_clnt, Option.getD_some, hblock, hterm]
    rfl

end Nrappkit.Registry
