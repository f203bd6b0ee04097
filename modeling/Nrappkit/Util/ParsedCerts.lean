import Nrappkit.Assoc.Map
import Nrappkit.Assoc.Crc32
import Nrappkit.Lib.Runs
/-!
# The cache of parsed certificates

`nr_ssl_util_parse_cert` of `ssl_util.c` keeps the certificates it has parsed in
a table, up to 4096 of them. `d2i_X509` is the parser of the library, a function
of the bytes. Certificates and the records that hold them have addresses, which
are not handed out twice.

The queue `cert_list` is there to find the oldest certificate. Nothing is ever
put into it: the first certificate that does not fit makes the program follow
the null pointer. Up to there the table and the counter agree: `run_cached`.
-/
open Lib Nrappkit.Assoc

namespace Nrappkit.Util

variable {X : Type}

/-! ## The functions -/

def MAX_PARSED_CERTS : Nat := 4096

structure parsed_cert where
  x509 : Option Ptr

/-- The static variables, and the memory. The data in the table are addresses of
`parsed_cert`s. -/
structure CertCache (X : Type) where
  certs : Option (r_assoc Ptr)
  cert_list : List Ptr
  cert_count : Nat
  parsed : Heap parsed_cert
  x509s : Heap X
  brk : Ptr

namespace CertCache

def start : CertCache X where
  certs := none
  cert_list := []
  cert_count := 0
  parsed _ := none
  x509s _ := none
  brk := 0

/-- The table, which the first call creates. -/
def table (s : CertCache X) : r_assoc Ptr := s.certs.getD (r_assoc_create r_assoc_crc32_hash_compute 13)

@[simp] theorem table_mk (certs : Option (r_assoc Ptr)) (l : List Ptr) (n : Nat) (parsed : Heap parsed_cert) (x509s : Heap X)
    (brk : Ptr) : table ⟨certs, l, n, parsed, x509s, brk⟩ = certs.getD (r_assoc_create r_assoc_crc32_hash_compute 13) := rfl

/-- The part for `!(certs)`. -/
def created (s : CertCache X) : CertCache X :=
  if s.certs.isNone then { s with certs := some s.table, cert_list := [] } else s

end CertCache

/-- `NULL` is left alone. -/
def nr_ssl_util_destroy_cert (s : CertCache X) : Option Ptr → Option (CertCache X)
  | none => some s
  | some cert => do
    let c ← s.parsed cert
    match c.x509 with
    | none => some { s with parsed := Function.update s.parsed cert none }
    | some x509 =>
      let _ ← s.x509s x509
      some { s with x509s := Function.update s.x509s x509 none, parsed := Function.update s.parsed cert none }

/-- `nr_ssl_util_destroy_cert_v`, as an address. -/
def destroy_cert_ptr : FnPtr := 1

variable (d2i_X509 : Bytes → Option X)

/-- `_ssl_util_parse_cert` -/
def ssl_util_parse_cert (s : CertCache X) (data : Bytes) : Option (Except Status Ptr × CertCache X) :=
  let cert := s.brk
  match d2i_X509 data with
  | none =>
    let s := { s with parsed := Function.update s.parsed cert (some ⟨none⟩), brk := cert + 1 }
    (nr_ssl_util_destroy_cert s (some cert)).map fun s => (.error .R_BAD_DATA, s)
  | some x =>
    let x509 := cert + 1
    some (.ok cert, { s with
      parsed := Function.update s.parsed cert (some ⟨some x509⟩)
      x509s := Function.update s.x509s x509 (some x)
      brk := x509 + 1 })

/-- Make room: take the first certificate out of the queue and destroy it. The
first element of an empty queue is null, and cannot be taken out. -/
def evict (s : CertCache X) : Option (CertCache X) :=
  match s.cert_list with
  | [] => none
  | cert :: cert_list =>
    (nr_ssl_util_destroy_cert { s with cert_list } (some cert)).map fun s => { s with cert_count := s.cert_count - 1 }

/-- The certificate that is stored in `*certp`. -/
def nr_ssl_util_parse_cert (s : CertCache X) (data : Bytes) : Option (Except Status (Option Ptr) × CertCache X) := do
  let s := s.created
  match ← r_assoc_fetch s.table data with
  | .ok v => (s.parsed v).map fun cert => (.ok cert.x509, s)
  | .error .R_NOT_FOUND =>
    let s ← if s.cert_count = MAX_PARSED_CERTS then evict s else some s
    match ← ssl_util_parse_cert d2i_X509 s data with
    | (.error r, s) => some (.error r, s)
    | (.ok cert, s) =>
      let (r, certs, _) ← r_assoc_insert s.table data cert none (some destroy_cert_ptr) .R_ASSOC_NEW
      if r ≠ .ok then (nr_ssl_util_destroy_cert s (some cert)).map fun s => (.error r, s) else
      let c ← s.parsed cert
      some (.ok c.x509, { s with certs := some certs, cert_count := s.cert_count + 1 })
  | .error r => some (.error r, s)

/-! ## What the cache is for -/

/-- The cached keys in the order they came, after a call for `data`: the oldest
one makes room. -/
def fifo (keys : List Bytes) (data : Bytes) : List Bytes :=
  if keys.contains data then keys else
  let kept := if keys.length = MAX_PARSED_CERTS then keys.tail else keys
  if (d2i_X509 data).isSome then kept ++ [data] else kept

/-- The queue, the table and the counter agree. -/
structure Coherent (s : CertCache X) (keys : List Bytes) : Prop where
  queue : List.Forall₂ (fun key cert => s.table.get key = some cert) keys s.cert_list
  found : ∀ key, (s.table.get key).isSome = true ↔ key ∈ keys
  count : s.cert_count = keys.length
  entries : s.table.entries = keys.length
  room : keys.length ≤ MAX_PARSED_CERTS

/-- What is returned is allocated, and what the parser makes of the bytes. -/
def Fresh (s : CertCache X) (data : Bytes) (r : Except Status (Option Ptr)) : Prop :=
  ∀ x509, r = .ok x509 → ∃ p x, x509 = some p ∧ s.x509s p = some x ∧ d2i_X509 data = some x

/-- A sequence of calls, from a state in which `keys` are cached. -/
def CacheHolds : CertCache X → List Bytes → List Bytes → Prop
  | _, _, [] => True
  | s, keys, data :: calls => ∃ r s', nr_ssl_util_parse_cert d2i_X509 s data = some (r, s') ∧
      Coherent s' (fifo d2i_X509 keys data) ∧ Fresh d2i_X509 s' data r ∧
      CacheHolds s' (fifo d2i_X509 keys data) calls

/-! ## One call -/

variable {d2i_X509}

/-- The table and the counter agree, what is found is what the parser makes of
the key, and nothing is in the queue. -/
structure Cached (d2i_X509 : Bytes → Option X) (s : CertCache X) (keys : List Bytes) : Prop where
  rep : ∃ cs, Rep s.table cs ∧ (order s.table cs).length = keys.length
  found : ∀ key, (s.table.get key).isSome = true ↔ key ∈ keys
  queue : s.cert_list = []
  count : s.cert_count = keys.length
  live : ∀ key p, s.table.get key = some p →
    ∃ q x, s.parsed p = some ⟨some q⟩ ∧ s.x509s q = some x ∧ d2i_X509 key = some x ∧ p < s.brk ∧ q < s.brk

namespace Cached
variable {s : CertCache X} {keys : List Bytes} {data : Bytes}

theorem start : Cached d2i_X509 (CertCache.start : CertCache X) [] := by
  have hrep : Rep (CertCache.start : CertCache X).table fun _ => [] :=
    create_rep r_assoc_crc32_hash_compute 13 fun k => crc32_lt k 13 (by decide)
  have hget : ∀ key, (CertCache.start : CertCache X).table.get key = none := by
    intro key
    rw [r_assoc.get, Option.map_eq_none_iff, hrep.entry_eq_none]
    intro a e he
    cases he
  refine ⟨⟨_, hrep, ?_⟩, fun key => by simp [hget], rfl, rfl, fun key p hp => ?_⟩
  · simp [order, orderFrom]
  · rw [hget] at hp
    cases hp

theorem created (h : Cached d2i_X509 s keys) : Cached d2i_X509 s.created keys ∧ s.created.brk = s.brk := by
  rw [CertCache.created]
  split
  · exact ⟨⟨h.rep, h.found, rfl, h.count, h.live⟩, rfl⟩
  · exact ⟨h, rfl⟩

theorem get_none (h : Cached d2i_X509 s keys) (hmiss : data ∉ keys) : s.table.get data = none := by
  rw [← Option.not_isSome_iff_eq_none, h.found]
  exact hmiss

/-- Bytes that are cached. -/
theorem hit (h : Cached d2i_X509 s keys) (hin : data ∈ keys) :
    ∃ r s', nr_ssl_util_parse_cert d2i_X509 s data = some (r, s') ∧ Cached d2i_X509 s' keys ∧ Fresh d2i_X509 s' data r := by
  obtain ⟨h, -⟩ := h.created
  obtain ⟨cs, hrep, -⟩ := h.rep
  obtain ⟨v, hv⟩ := Option.isSome_iff_exists.1 ((h.found data).2 hin)
  obtain ⟨q, x, hp, hx, hd, -⟩ := h.live data v hv
  have hfetch : r_assoc_fetch s.created.table data = some (.ok v) := by rw [hrep.fetch_eq, hv]
  refine ⟨.ok (some q), s.created, by simp [nr_ssl_util_parse_cert, hfetch, hp], h, ?_⟩
  rintro _ ⟨⟩
  exact ⟨q, x, rfl, hx, hd⟩

/-- Bytes that are not cached, when there is no room. -/
theorem full (h : Cached d2i_X509 s keys) (hmiss : data ∉ keys) (hfull : keys.length = MAX_PARSED_CERTS) :
    nr_ssl_util_parse_cert d2i_X509 s data = none := by
  obtain ⟨h, -⟩ := h.created
  obtain ⟨cs, hrep, -⟩ := h.rep
  have hfetch : r_assoc_fetch s.created.table data = some (.error .R_NOT_FOUND) := by
    rw [hrep.fetch_eq, h.get_none hmiss]
  simp [nr_ssl_util_parse_cert, hfetch, h.count, hfull, evict, h.queue]

/-- Bytes that the parser refuses. -/
theorem bad (h : Cached d2i_X509 s keys) (hmiss : data ∉ keys) (hroom : keys.length ≠ MAX_PARSED_CERTS)
    (hbad : d2i_X509 data = none) :
    ∃ r s', nr_ssl_util_parse_cert d2i_X509 s data = some (r, s') ∧ Cached d2i_X509 s' keys ∧ Fresh d2i_X509 s' data r := by
  obtain ⟨h, -⟩ := h.created
  obtain ⟨cs, hrep, hlen⟩ := h.rep
  have hfetch : r_assoc_fetch s.created.table data = some (.error .R_NOT_FOUND) := by
    rw [hrep.fetch_eq, h.get_none hmiss]
  have hcount : s.created.cert_count ≠ MAX_PARSED_CERTS := by rw [h.count]; exact hroom
  let s' : CertCache X := { s.created with
    parsed := Function.update (Function.update s.created.parsed s.created.brk (some ⟨none⟩)) s.created.brk none
    brk := s.created.brk + 1 }
  refine ⟨.error .R_BAD_DATA, s', ?_, ⟨⟨cs, hrep, hlen⟩, h.found, h.queue, h.count, fun key p hp => ?_⟩, fun _ he => by cases he⟩
  · simp [nr_ssl_util_parse_cert, hfetch, hcount, ssl_util_parse_cert, hbad, nr_ssl_util_destroy_cert, s']
  · obtain ⟨q, x, hpq, hx, hd, hpb, hqb⟩ := h.live key p hp
    refine ⟨q, x, ?_, hx, hd, Nat.lt_succ_of_lt hpb, Nat.lt_succ_of_lt hqb⟩
    have hne := Nat.ne_of_lt hpb
    rw [show s'.parsed p = _ from Function.update_of_ne hne .., Function.update_of_ne hne, hpq]

/-- A new certificate. -/
theorem new (h : Cached d2i_X509 s keys) (hmiss : data ∉ keys) (hroom : keys.length ≠ MAX_PARSED_CERTS) {x : X}
    (hx : d2i_X509 data = some x) :
    ∃ r s', nr_ssl_util_parse_cert d2i_X509 s data = some (r, s') ∧ Cached d2i_X509 s' (keys ++ [data]) ∧
      Fresh d2i_X509 s' data r := by
  obtain ⟨h, -⟩ := h.created
  obtain ⟨cs, hrep, hlen⟩ := h.rep
  have hget := h.get_none hmiss
  have hfetch : r_assoc_fetch s.created.table data = some (.error .R_NOT_FOUND) := by rw [hrep.fetch_eq, hget]
  have hcount : s.created.cert_count ≠ MAX_PARSED_CERTS := by rw [h.count]; exact hroom
  have hentry : s.created.table.entry data = none := by rwa [r_assoc.get, Option.map_eq_none_iff] at hget
  let cert := s.created.brk
  obtain ⟨certs, cs', hins, hrep', hent, hord, -⟩ :=
    hrep.insert_absent hentry cert none (some destroy_cert_ptr) .R_ASSOC_NEW
  have hget' : certs.get = Function.update s.created.table.get data (some cert) := get_update hent
  let s' : CertCache X := { s.created with
    certs := some certs
    cert_count := s.created.cert_count + 1
    parsed := Function.update s.created.parsed cert (some ⟨some (cert + 1)⟩)
    x509s := Function.update s.created.x509s (cert + 1) (some x)
    brk := cert + 1 + 1 }
  have hpar : s'.parsed cert = some ⟨some (cert + 1)⟩ := Function.update_self ..
  have hobj : s'.x509s (cert + 1) = some x := Function.update_self ..
  refine ⟨.ok (some (cert + 1)), s', ?_, ⟨⟨cs', hrep', ?_⟩, fun key => ?_, h.queue, ?_, fun key p hp => ?_⟩, ?_⟩
  · have hins' : r_assoc_insert (s.created.certs.getD (r_assoc_create r_assoc_crc32_hash_compute 13)) data s.created.brk none
        (some destroy_cert_ptr) .R_ASSOC_NEW = some (.ok, certs, []) := hins
    simp [nr_ssl_util_parse_cert, hfetch, hcount, ssl_util_parse_cert, hx, hins', s', cert]
  · show (order certs cs').length = _
    rw [hord, hlen, List.length_append, List.length_singleton]
  · show (certs.get key).isSome = true ↔ _
    rw [hget', List.mem_append, List.mem_singleton, ← h.found key]
    by_cases hkey : key = data
    · simp [hkey]
    · simp [hkey]
  · show s.created.cert_count + 1 = _
    rw [h.count, List.length_append, List.length_singleton]
  · have hp : certs.get key = some p := hp
    rw [hget'] at hp
    by_cases hkey : key = data
    · rw [hkey, Function.update_self] at hp
      cases hp
      exact ⟨cert + 1, x, hpar, hobj, hkey ▸ hx, Nat.lt_succ_of_lt (Nat.lt_succ_self _), Nat.lt_succ_self _⟩
    · rw [Function.update_of_ne hkey] at hp
      obtain ⟨q, y, hpq, hy, hd, hpb, hqb⟩ := h.live key p hp
      have hpb : p < cert := hpb
      have hqb : q < cert := hqb
      refine ⟨q, y, ?_, ?_, hd, Nat.lt_succ_of_lt (Nat.lt_succ_of_lt hpb), Nat.lt_succ_of_lt (Nat.lt_succ_of_lt hqb)⟩
      · rw [show s'.parsed p = _ from Function.update_of_ne (Nat.ne_of_lt hpb) .., hpq]
      · rw [show s'.x509s q = _ from Function.update_of_ne (Nat.ne_of_lt (Nat.lt_succ_of_lt hqb)) .., hy]
  · rintro _ ⟨⟩
    exact ⟨cert + 1, x, rfl, hobj, hx⟩

end Cached

/-! ## Sequences of calls -/

/-- The keys cached after a call, without a queue. -/
def cachedKeys (d2i_X509 : Bytes → Option X) (keys : List Bytes) (data : Bytes) : List Bytes :=
  if !keys.contains data && (d2i_X509 data).isSome then keys ++ [data] else keys

/-- A call keeps the table and the counter right unless the cache is full and
the bytes are not cached. -/
theorem parse_cert_iff {s : CertCache X} {keys : List Bytes} (h : Cached d2i_X509 s keys) (data : Bytes) :
    (∃ r s', nr_ssl_util_parse_cert d2i_X509 s data = some (r, s') ∧ Cached d2i_X509 s' (cachedKeys d2i_X509 keys data) ∧
      Fresh d2i_X509 s' data r) ↔ data ∈ keys ∨ keys.length ≠ MAX_PARSED_CERTS := by
  by_cases hin : data ∈ keys
  · have hkeys : cachedKeys d2i_X509 keys data = keys := by simp [cachedKeys, hin]
    rw [hkeys]
    exact iff_of_true (h.hit hin) (.inl hin)
  · by_cases hroom : keys.length = MAX_PARSED_CERTS
    · refine iff_of_false ?_ (not_or.2 ⟨hin, not_not.2 hroom⟩)
      rintro ⟨r, s', hp, -⟩
      rw [h.full hin hroom] at hp
      cases hp
    · refine iff_of_true ?_ (.inr hroom)
      cases hx : d2i_X509 data with
      | none =>
        have hkeys : cachedKeys d2i_X509 keys data = keys := by simp [cachedKeys, hx]
        rw [hkeys]
        exact h.bad hin hroom hx
      | some x =>
        have hkeys : cachedKeys d2i_X509 keys data = keys ++ [data] := by simp [cachedKeys, hin, hx]
        rw [hkeys]
        exact h.new hin hroom hx

/-- In every run the table and the counter agree, and there is nothing in the
queue. -/
theorem run_cached {evs : List (Bytes × Except Status (Option Ptr))} {s : CertCache X}
    (hrun : Run (nr_ssl_util_parse_cert d2i_X509) (fun _ _ => True) CertCache.start evs s) :
    ∃ keys, Cached d2i_X509 s keys := by
  refine hrun.inv (fun s => ∃ keys, Cached d2i_X509 s keys) ⟨[], Cached.start⟩ ?_
  rintro s data r s' ⟨keys, h⟩ - hst
  have hok : data ∈ keys ∨ keys.length ≠ MAX_PARSED_CERTS := by
    by_contra hno
    obtain ⟨hin, hfull⟩ := not_or.1 hno
    rw [h.full hin (not_not.1 hfull)] at hst
    cases hst
  obtain ⟨r₁, s₁, hst₁, h', -⟩ := (parse_cert_iff h data).2 hok
  rw [hst] at hst₁
  cases hst₁
  exact ⟨_, h'⟩

/-- The cache is what it is for as long as no certificate can be parsed. -/
theorem cert_cache_iff (d2i_X509 : Bytes → Option X) (calls : List Bytes) :
    CacheHolds d2i_X509 CertCache.start [] calls ↔ ∀ data ∈ calls, d2i_X509 data = none := by
  have main : ∀ s : CertCache X, Cached d2i_X509 s [] →
      (CacheHolds d2i_X509 s [] calls ↔ ∀ data ∈ calls, d2i_X509 data = none) := by
    induction calls with
    | nil => simp [CacheHolds]
    | cons data calls ih =>
      intro s h
      have hmiss : data ∉ ([] : List Bytes) := List.not_mem_nil
      rw [List.forall_mem_cons]
      cases hx : d2i_X509 data with
      | none =>
        have hkeys : fifo d2i_X509 [] data = [] := by simp [fifo, hx]
        obtain ⟨r, s', hp, h', hfresh⟩ := h.bad hmiss (by decide) hx
        obtain ⟨cs, hrep, hlen⟩ := h'.rep
        rw [CacheHolds, hkeys, and_iff_right rfl, ← ih s' h']
        constructor
        · rintro ⟨r₁, s₁, hp₁, -, -, hrest⟩
          rw [hp] at hp₁
          cases hp₁
          exact hrest
        · refine fun hrest => ⟨r, s', hp, ⟨?_, h'.found, h'.count, ?_, Nat.zero_le _⟩, hfresh, hrest⟩
          · rw [h'.queue]
            exact .nil
          · rw [hrep.entries_eq, hlen]
      | some x =>
        refine iff_of_false ?_ fun hnone => Option.some_ne_none x hnone.1
        have hkeys : fifo d2i_X509 [] data = [data] := by simp [fifo, hx, MAX_PARSED_CERTS]
        obtain ⟨r, s', hp, h', -⟩ := h.new hmiss (by decide) hx
        rintro ⟨r₁, s₁, hp₁, hco, -⟩
        rw [hp] at hp₁
        cases hp₁
        -- the certificate is cached, and the queue is empty
        have hq := hco.queue
        rw [hkeys, h'.queue] at hq
        cases hq
  exact main _ Cached.start

theorem first_cert_not_queued : ¬ CacheHolds (fun data => some data) CertCache.start [] [[48]] := by
  rintro ⟨r, s', hp, hco, -⟩
  obtain ⟨r₁, s₁, hp₁, h', -⟩ : ∃ r₁ s₁, nr_ssl_util_parse_cert (fun data => some data) CertCache.start [48] = some (r₁, s₁) ∧
      Cached (fun data => some data) s₁ [[48]] ∧ Fresh (fun data => some data) s₁ [48] r₁ :=
    Cached.start.new (by simp) (by decide) rfl
  rw [hp] at hp₁
  cases hp₁
  have hq := hco.queue
  rw [h'.queue] at hq
  have hkeys : fifo (fun data => some data) [] [48] = [[48]] := by decide
  rw [hkeys] at hq
  cases hq

end Nrappkit.Util
