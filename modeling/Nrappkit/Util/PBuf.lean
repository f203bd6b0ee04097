import Nrappkit.Common
import Nrappkit.Lib.Stailq
/-!
# Packet buffers

`p_buf.c`: chains of buffers that take what is written to them, and the context
whose free list they come from and go to. Buffers are allocated by address and
never given back to `malloc`. What a new block holds is `junk`.

The number of bytes that go into a buffer is an `int`: from 2^31 bytes on it is
negative, and copying a negative number of bytes is undefined.
-/
open Lib Lib.SLink

namespace Nrappkit.Util

/-! ## The functions -/

structure nr_p_buf where
  /-- The block of `size` bytes. -/
  data : Bytes
  size : UInt32
  r_offset : UInt32
  length : UInt32
  entry : Option Ptr := none

instance : SLink nr_p_buf (Bytes × UInt32 × UInt32 × UInt32) where
  next b := b.entry
  body b := (b.data, b.size, b.r_offset, b.length)
  setNext b p := { b with entry := p }
  next_setNext _ _ := rfl
  body_setNext _ _ := rfl

structure nr_p_buf_ctx where
  buf_size : Int32
  free_list : Head

/-- The buffers of one context. -/
structure Buffers where
  ctx : nr_p_buf_ctx
  heap : Heap nr_p_buf
  /-- The next address `RCALLOC` hands out. -/
  brk : Ptr

def nr_p_buf_ctx_create (size : Int32) : Buffers where
  ctx := { buf_size := size, free_list := Head.empty }
  heap _ := none
  brk := 0

/-- What `RMALLOC` makes of the size of a context: no block, or the number of
bytes in it that can be used. `r_malloc` adds the 12 bytes of its chunk to a
`size_t`; from -12 on the sum wraps, to fewer bytes than the eight before the
memory, which is undefined, or to a block of less than four bytes. -/
def RMALLOC (size : Int32) : Option (Option Nat) :=
  if 0 ≤ size then some (some size.toUInt32.toNat)
  else if size < -12 then some none
  else if size < -4 then none
  else some (some (size + 4).toUInt32.toNat)

variable (junk : Ptr → Nat → UInt8)

def nr_p_buf_alloc (s : Buffers) : Option (Except Status Ptr × Buffers) :=
  match s.ctx.free_list.first with
  | some buf => do
    let free_list ← removeHead s.heap s.ctx.free_list
    let heap ← s.heap.write buf fun b => { b with r_offset := 0, length := 0 }
    some (.ok buf, { s with ctx := { s.ctx with free_list }, heap })
  | none => do
    match ← RMALLOC s.ctx.buf_size with
    | none => some (.error .R_NO_MEMORY, s)
    | some n =>
      let size := s.ctx.buf_size.toUInt32
      let buf := { data := (List.range n).map (junk s.brk), size, r_offset := 0, length := 0 }
      some (.ok s.brk, { s with heap := Function.update s.heap s.brk (some buf), brk := s.brk + 1 })

def nr_p_buf_free (s : Buffers) (buf : Ptr) : Option (Status × Buffers) := do
  let (heap, free_list) ← insertTail s.heap s.ctx.free_list buf
  some (.ok, { s with ctx := { s.ctx with free_list }, heap })

/-- The loop of `nr_p_buf_free_chain`, for at most `n` buffers. -/
def free_loop : Nat → Buffers → Option Ptr → Option Buffers
  | _, s, none => some s
  | 0, _, some _ => none
  | n + 1, s, some n1 => do
    let b ← s.heap n1
    let (_, s) ← nr_p_buf_free s n1
    free_loop n s b.entry

/-- The head of the chain is left as it was. -/
def nr_p_buf_free_chain (s : Buffers) (chain : Head) : Option (Status × Buffers) :=
  (free_loop s.brk s chain.first).map (.ok, ·)

/-- Copying behind the end of a block is undefined. -/
def memcpy (block : Bytes) (offset : Nat) (src : Bytes) : Option Bytes :=
  if offset + src.length ≤ block.length then
    some (block.take offset ++ src ++ block.drop (offset + src.length)) else none

/-- The bytes that a buffer has room for. -/
def nr_p_buf.room (b : nr_p_buf) : UInt32 := b.size - (b.length + b.r_offset)

/-- Copy `towrite` bytes behind the data portion. -/
def nr_p_buf.take (b : nr_p_buf) (data : Bytes) (towrite : Nat) : Option nr_p_buf :=
  if towrite ≥ 2 ^ 31 then none
  else (memcpy b.data (b.length + b.r_offset).toNat (data.take towrite)).map fun data =>
    { b with data, length := b.length + UInt32.ofNat towrite }

/-- A new buffer at the end of the chain. -/
def append_buf (s : Buffers) (chain : Head) : Option (Except Status Ptr × Buffers × Head) := do
  match ← nr_p_buf_alloc junk s with
  | (.error r, s) => some (.error r, s, chain)
  | (.ok buf, s) =>
    let (heap, chain) ← insertTail s.heap chain buf
    some (.ok buf, { s with heap }, chain)

/-- The loop of `nr_p_buf_write_to_chain`, in at most `n` rounds. -/
def write_loop : Nat → Buffers → Head → Option Ptr → Bytes → Option (Status × Buffers × Head)
  | _, s, chain, _, [] => some (.ok, s, chain)
  | 0, _, _, _, _ :: _ => none
  | n + 1, s, chain, buf, c :: data => do
    match ← (match buf with
      | some buf => some (.ok buf, s, chain)
      | none => append_buf junk s chain) with
    | (.error r, s, chain) => some (r, s, chain)
    | (.ok buf, s, chain) =>
      let b ← s.heap buf
      let towrite := min (c :: data).length b.room.toNat
      let b ← b.take (c :: data) towrite
      write_loop n { s with heap := Function.update s.heap buf (some b) } chain none ((c :: data).drop towrite)

/-- Write to a chain, in at most `n` rounds. A chain that is not empty has a
last buffer. -/
def nr_p_buf_write_to_chain (n : Nat) (s : Buffers) (chain : Head) (data : Bytes) :
    Option (Status × Buffers × Head) :=
  write_loop junk n s chain (if chain.first.isNone then none else chain.last) data

/-! ## Allocation -/

theorem RMALLOC_cases (size : Int32) : (size < 0 ∧ (RMALLOC size = none ∨ RMALLOC size = some none)) ∨
    ∃ n, RMALLOC size = some (some n) ∧ (0 ≤ size → n = size.toUInt32.toNat) := by
  unfold RMALLOC
  split
  · exact .inr ⟨_, rfl, fun _ => rfl⟩
  rename_i hneg
  have hlt : size < 0 := Int32.not_le.1 hneg
  split
  · exact .inl ⟨hlt, .inr rfl⟩
  split
  · exact .inl ⟨hlt, .inl rfl⟩
  · exact .inr ⟨_, rfl, fun h => absurd h hneg⟩

/-- The free list links the buffers of `free`, and no address is handed out
twice. -/
structure Pool (s : Buffers) (free : List Ptr) : Prop where
  queue : IsQueue s.heap s.ctx.free_list free
  fresh : ∀ p b, s.heap p = some b → p < s.brk

/-- A buffer as `nr_p_buf_alloc` makes it, up to its contents. -/
def Made (s : Buffers) (p : Ptr) : Prop :=
  ∃ b, s.heap p = some b ∧ b.size = s.ctx.buf_size.toUInt32 ∧ b.data.length = b.size.toNat

/-- What a call that hands out the buffer `p` does. -/
structure Taken (s s' : Buffers) (free free' : List Ptr) (p : Ptr) : Prop where
  pool : Pool s' free'
  suffix : free' <:+ free
  origin : p ∈ free ∨ s.brk ≤ p
  not_free : p ∉ free'
  cleared : ∃ b, s'.heap p = some b ∧ b.r_offset = 0 ∧ b.length = 0
  made : 0 ≤ s.ctx.buf_size → (∀ x ∈ free, Made s x) → Made s' p
  frame : ∀ x, x ≠ p → s'.heap x = s.heap x
  buf_size : s'.ctx.buf_size = s.ctx.buf_size
  brk : s.brk ≤ s'.brk

theorem Pool.lt {s : Buffers} {free : List Ptr} (hp : Pool s free) {p : Ptr} (h : p ∈ free) : p < s.brk := by
  obtain ⟨b, hb⟩ := hp.queue.links.live h
  exact hp.fresh p b hb

/-- The free list is empty: a buffer is made. -/
theorem Pool.make {s : Buffers} (hp : Pool s []) {n : Nat} (hm : RMALLOC s.ctx.buf_size = some (some n))
    (hn : 0 ≤ s.ctx.buf_size → n = s.ctx.buf_size.toUInt32.toNat) :
    ∃ s', nr_p_buf_alloc junk s = some (.ok s.brk, s') ∧ Taken s s' [] [] s.brk := by
  have hfirst : s.ctx.free_list.first = none := hp.queue.first_eq
  let b : nr_p_buf :=
    { data := (List.range n).map (junk s.brk), size := s.ctx.buf_size.toUInt32, r_offset := 0, length := 0 }
  have hfresh : ∀ p c, Function.update s.heap s.brk (some b) p = some c → p < s.brk + 1 := by
    intro p c hc
    by_cases hpb : p = s.brk
    · rw [hpb]
      exact Nat.lt_succ_self _
    · rw [Function.update_of_ne hpb] at hc
      exact Nat.lt_succ_of_lt (hp.fresh p c hc)
  refine ⟨{ s with heap := Function.update s.heap s.brk (some b), brk := s.brk + 1 },
    by simp [nr_p_buf_alloc, hfirst, hm, b], ?_⟩
  exact {
    pool := ⟨hp.queue.frame (by simp), hfresh⟩
    suffix := List.suffix_refl _
    origin := .inr (Nat.le_refl _)
    not_free := by simp
    cleared := ⟨b, Function.update_self .., rfl, rfl⟩
    made := fun hsize _ => ⟨b, Function.update_self .., rfl, by simp [b, hn hsize]⟩
    frame := fun x hx => Function.update_of_ne hx _ _
    buf_size := rfl
    brk := Nat.le_succ _ }

/-- The first buffer of the free list is cleared. -/
theorem Pool.reuse {s : Buffers} {free : List Ptr} {p : Ptr} (hp : Pool s (p :: free)) :
    ∃ s', nr_p_buf_alloc junk s = some (.ok p, s') ∧ Taken s s' (p :: free) free p := by
  have hfirst : s.ctx.free_list.first = some p := hp.queue.first_eq
  obtain ⟨q, hq, hqueue⟩ := hp.queue.removeHead
  obtain ⟨b, hb⟩ := hp.queue.links.live (List.mem_cons_self ..)
  let b' : nr_p_buf := { b with r_offset := 0, length := 0 }
  have hw : s.heap.write p (fun b => { b with r_offset := 0, length := 0 }) =
      some (Function.update s.heap p (some b')) := Heap.write_eq hb _
  have hpf : p ∉ free := (List.nodup_cons.1 hp.queue.nodup).1
  have hkept : ∀ x ∈ free, (Function.update s.heap p (some b') x).map SLink.next = (s.heap x).map SLink.next := by
    intro x hx
    have hxp : x ≠ p := by
      rintro rfl
      exact hpf hx
    rw [Function.update_of_ne hxp]
  have hfresh : ∀ x c, Function.update s.heap p (some b') x = some c → x < s.brk := by
    intro x c hc
    by_cases hxp : x = p
    · rw [hxp]
      exact hp.fresh p b hb
    · rw [Function.update_of_ne hxp] at hc
      exact hp.fresh x c hc
  have hmade : (∀ x ∈ p :: free, Made s x) → b'.size = s.ctx.buf_size.toUInt32 ∧ b'.data.length = b'.size.toNat := by
    intro hmade
    obtain ⟨c, hc, hsize, hblock⟩ := hmade p (List.mem_cons_self ..)
    rw [hb, Option.some.injEq] at hc
    subst hc
    exact ⟨hsize, hblock⟩
  refine ⟨{ s with ctx := { s.ctx with free_list := q }, heap := Function.update s.heap p (some b') },
    by simp [nr_p_buf_alloc, hfirst, hq, hw], ?_⟩
  exact {
    pool := ⟨hqueue.frame hkept, hfresh⟩
    suffix := List.suffix_cons ..
    origin := .inl (List.mem_cons_self ..)
    not_free := hpf
    cleared := ⟨b', Function.update_self .., rfl, rfl⟩
    made := fun _ h => ⟨b', Function.update_self .., hmade h⟩
    frame := fun x hx => Function.update_of_ne hx _ _
    buf_size := rfl
    brk := Nat.le_refl _ }

/-- `nr_p_buf_alloc` hands out a buffer, unless it has to make one of a
negative size. -/
theorem nr_p_buf_alloc_spec {s : Buffers} {free : List Ptr} (hp : Pool s free) :
    (s.ctx.buf_size < 0 ∧
      (nr_p_buf_alloc junk s = none ∨ nr_p_buf_alloc junk s = some (.error .R_NO_MEMORY, s))) ∨
      ∃ p s' free', nr_p_buf_alloc junk s = some (.ok p, s') ∧ Taken s s' free free' p := by
  cases free with
  | nil =>
    have hfirst : s.ctx.free_list.first = none := hp.queue.first_eq
    rcases RMALLOC_cases s.ctx.buf_size with ⟨hsize, hm⟩ | ⟨n, hm, hn⟩
    · refine .inl ⟨hsize, ?_⟩
      rcases hm with hm | hm
      · exact .inl (by simp [nr_p_buf_alloc, hfirst, hm])
      · exact .inr (by simp [nr_p_buf_alloc, hfirst, hm])
    · obtain ⟨s', heq, htaken⟩ := hp.make junk hm hn
      exact .inr ⟨s.brk, s', [], heq, htaken⟩
  | cons p free =>
    obtain ⟨s', heq, htaken⟩ := hp.reuse junk
    exact .inr ⟨p, s', free, heq, htaken⟩

/-! ## Release -/

/-- What a call that frees the buffers of `l` does. -/
structure Freed (s s' : Buffers) (free l : List Ptr) : Prop where
  pool : Pool s' (free ++ l)
  frame : ∀ x, x ∉ l → free.getLast? ≠ some x → s'.heap x = s.heap x
  live : ∀ x b, s.heap x = some b → ∃ b', s'.heap x = some b'
  buf_size : s'.ctx.buf_size = s.ctx.buf_size
  brk : s'.brk = s.brk

theorem nr_p_buf_free_spec {s : Buffers} {free : List Ptr} (hp : Pool s free) {buf : Ptr} (hfree : buf ∉ free)
    {b : nr_p_buf} (hb : s.heap buf = some b) :
    ∃ s', nr_p_buf_free s buf = some (.ok, s') ∧ Freed s s' free [buf] := by
  obtain ⟨heap, free_list, hins, hqueue, hbody, hframe⟩ := hp.queue.insertTail hfree hb
  have hlive : ∀ x c, s.heap x = some c → ∃ c', heap x = some c' := by
    intro x c hc
    have h := hbody x
    rw [hc] at h
    obtain ⟨c', hc', -⟩ := Option.map_eq_some_iff.1 h
    exact ⟨c', hc'⟩
  have hfresh : ∀ x c, heap x = some c → x < s.brk := by
    intro x c hc
    have h := hbody x
    rw [hc] at h
    obtain ⟨c', hc', -⟩ := Option.map_eq_some_iff.1 h.symm
    exact hp.fresh x c' hc'
  refine ⟨{ s with ctx := { s.ctx with free_list }, heap }, by simp [nr_p_buf_free, hins], ⟨hqueue, hfresh⟩,
    fun x hx hlast => ?_, hlive, rfl, rfl⟩
  exact hframe x (fun h => hx (List.mem_singleton.2 h)) hlast

/-- The loop reads the link of each buffer before it frees it. -/
theorem free_loop_spec {s : Buffers} {free : List Ptr} (hp : Pool s free) {hd : Option Ptr} {l : List Ptr}
    (hl : Links s.heap hd l none) (hn : l.Nodup) (hapart : ∀ p ∈ l, p ∉ free) {n : Nat} (hlen : l.length ≤ n) :
    ∃ s', free_loop n s hd = some s' ∧ Freed s s' free l := by
  induction l generalizing s free hd n with
  | nil =>
    obtain rfl : hd = none := hl
    refine ⟨s, by rw [free_loop], by rwa [List.append_nil], fun _ _ _ => rfl, fun x b hb => ⟨b, hb⟩, rfl, rfl⟩
  | cons p l ih =>
    obtain ⟨rfl, b, hb, hl⟩ := hl
    obtain ⟨hpl, hn⟩ := List.nodup_cons.1 hn
    obtain ⟨s₁, hfree, h₁⟩ := nr_p_buf_free_spec hp (hapart p (by simp)) hb
    have hkept : ∀ x ∈ l, s₁.heap x = s.heap x := by
      intro x hx
      refine h₁.frame x (fun hxp => hpl (List.mem_singleton.1 hxp ▸ hx)) fun hlast => ?_
      exact hapart x (by simp [hx]) (List.mem_of_getLast? hlast)
    have hl₁ : Links s₁.heap b.entry l none := hl.frame fun x hx => by rw [hkept x hx]
    have hapart₁ : ∀ x ∈ l, x ∉ free ++ [p] := by
      intro x hx hxf
      rcases List.mem_append.1 hxf with hxf | hxp
      · exact hapart x (by simp [hx]) hxf
      · exact hpl (List.mem_singleton.1 hxp ▸ hx)
    rw [List.length_cons] at hlen
    obtain ⟨n, rfl⟩ : ∃ m, n = m + 1 := ⟨n - 1, by omega⟩
    obtain ⟨s', hloop, h'⟩ := ih h₁.pool hl₁ hn hapart₁ (n := n) (by omega)
    refine ⟨s', by simp [free_loop, hb, hfree, hloop], ?_, fun x hx hlast => ?_, fun x c hc => ?_,
      h'.buf_size.trans h₁.buf_size, h'.brk.trans h₁.brk⟩
    · have h := h'.pool
      rwa [List.append_assoc, List.singleton_append] at h
    · rw [List.mem_cons, not_or] at hx
      rw [h'.frame x hx.2 (by rw [List.getLast?_concat]; exact fun h => hx.1 (Option.some.inj h).symm)]
      exact h₁.frame x (fun h => hx.1 (List.mem_singleton.1 h)) hlast
    · obtain ⟨c', hc'⟩ := h₁.live x c hc
      exact h'.live x c' hc'

theorem nr_p_buf_free_chain_spec {s : Buffers} {chain : Head} {l free : List Ptr} (hp : Pool s free)
    (hq : IsQueue s.heap chain l) (hapart : ∀ p ∈ l, p ∉ free) :
    ∃ s', nr_p_buf_free_chain s chain = some (.ok, s') ∧ Freed s s' free l := by
  have hlen : l.length ≤ s.brk := by
    refine length_le_of_lt hq.nodup fun p hpl => ?_
    obtain ⟨b, hb⟩ := hq.links.live hpl
    exact hp.fresh p b hb
  obtain ⟨s', hloop, hf⟩ := free_loop_spec hp hq.links hq.nodup hapart hlen
  exact ⟨s', by simp [nr_p_buf_free_chain, hloop], hf⟩

/-! ## A chain and its context -/

/-- The head links the buffers of `l`, none of which is free. -/
structure Chain (s : Buffers) (chain : Head) (l free : List Ptr) : Prop where
  queue : IsQueue s.heap chain l
  pool : Pool s free
  apart : ∀ p ∈ free, p ∉ l

/-- What a call that writes to the chain of `l` may do: append the buffers of
`new`, and change these and the last one it found. -/
structure Grown (s s' : Buffers) (l free new free' : List Ptr) : Prop where
  suffix : free' <:+ free
  origin : ∀ p ∈ new, p ∈ free ∨ s.brk ≤ p
  frame : ∀ x, x ∉ new → l.getLast? ≠ some x → s'.heap x = s.heap x
  buf_size : s'.ctx.buf_size = s.ctx.buf_size
  brk : s.brk ≤ s'.brk

theorem Grown.refl (s : Buffers) (l free : List Ptr) : Grown s s l free [] free :=
  ⟨List.suffix_refl _, by simp, fun _ _ _ => rfl, rfl, Nat.le_refl _⟩

theorem Grown.trans {s s₁ s₂ : Buffers} {l free new₁ free₁ new₂ free₂ : List Ptr} (h1 : Grown s s₁ l free new₁ free₁)
    (h2 : Grown s₁ s₂ (l ++ new₁) free₁ new₂ free₂) : Grown s s₂ l free (new₁ ++ new₂) free₂ where
  suffix := h2.suffix.trans h1.suffix
  origin := by
    intro p hp
    rcases List.mem_append.1 hp with hp | hp
    · exact h1.origin p hp
    · exact (h2.origin p hp).imp (fun h => h1.suffix.subset h) fun h => Nat.le_trans h1.brk h
  frame := by
    intro x hx hlast
    rw [List.mem_append, not_or] at hx
    rw [h2.frame x hx.2 ?_, h1.frame x hx.1 hlast]
    rw [List.getLast?_append]
    rcases List.eq_nil_or_concat new₁ with rfl | ⟨new, a, rfl⟩
    · simpa using hlast
    · rw [List.concat_eq_append] at hx ⊢
      rw [List.getLast?_concat]
      rintro h
      cases h
      exact hx.1 (by simp)
  buf_size := h2.buf_size.trans h1.buf_size
  brk := Nat.le_trans h1.brk h2.brk

theorem Made.congr {s s' : Buffers} {x : Ptr} (h : Made s x) (heq : s'.heap x = s.heap x)
    (hsize : s'.ctx.buf_size = s.ctx.buf_size) : Made s' x := by
  obtain ⟨b, hb, h⟩ := h
  exact ⟨b, by rw [heq, hb], by rw [hsize]; exact h⟩

/-- What is left of the free list was not touched. -/
theorem Grown.made {s s' : Buffers} {chain' : Head} {l free new free' : List Ptr} (h : Grown s s' l free new free')
    (hc : Chain s' chain' (l ++ new) free') (hmade : ∀ x ∈ free, Made s x) : ∀ x ∈ free', Made s' x := by
  intro x hx
  have hout := hc.apart x hx
  rw [List.mem_append, not_or] at hout
  refine (hmade x (h.suffix.subset hx)).congr (h.frame x hout.2 fun hlast => ?_) h.buf_size
  exact hout.1 (List.mem_of_getLast? hlast)

namespace Chain
variable {s : Buffers} {chain : Head} {l free : List Ptr}

/-- Writing into the last buffer of a chain. -/
theorem update_last (hc : Chain s chain l free) {p : Ptr} (hlast : l.getLast? = some p) {b b' : nr_p_buf}
    (hb : s.heap p = some b) (hentry : b'.entry = b.entry) :
    Chain { s with heap := Function.update s.heap p (some b') } chain l free ∧
      Grown s { s with heap := Function.update s.heap p (some b') } l free [] free := by
  have hnext : ∀ x, (Function.update s.heap p (some b') x).map SLink.next = (s.heap x).map SLink.next := by
    intro x
    by_cases hx : x = p
    · rw [hx, Function.update_self, hb]
      exact congrArg some hentry
    · rw [Function.update_of_ne hx]
  have hfresh : ∀ x c, Function.update s.heap p (some b') x = some c → x < s.brk := by
    intro x c hx
    by_cases hxp : x = p
    · rw [hxp]
      exact hc.pool.fresh p b hb
    · rw [Function.update_of_ne hxp] at hx
      exact hc.pool.fresh x c hx
  refine ⟨⟨hc.queue.frame fun x _ => hnext x, ⟨hc.pool.queue.frame fun x _ => hnext x, hfresh⟩, hc.apart⟩, ?_⟩
  refine ⟨List.suffix_refl _, by simp, fun x _ hx => Function.update_of_ne ?_ _ _, rfl, Nat.le_refl _⟩
  rintro rfl
  exact hx hlast

/-- A new buffer is appended, unless it cannot be made. -/
theorem append_buf (hc : Chain s chain l free) :
    (s.ctx.buf_size < 0 ∧
      (append_buf junk s chain = none ∨ append_buf junk s chain = some (.error .R_NO_MEMORY, s, chain))) ∨
      ∃ p s' chain' free', Util.append_buf junk s chain = some (.ok p, s', chain') ∧
        Chain s' chain' (l ++ [p]) free' ∧ Grown s s' l free [p] free' ∧
        (∃ b, s'.heap p = some b ∧ b.r_offset = 0 ∧ b.length = 0) ∧
        (0 ≤ s.ctx.buf_size → (∀ x ∈ free, Made s x) → Made s' p) ∧
        ∀ x, x ≠ p → (s'.heap x).map body = (s.heap x).map body := by
  rcases nr_p_buf_alloc_spec junk hc.pool with ⟨hsize, herr⟩ | ⟨p, s₁, free', hok, ht⟩
  · refine .inl ⟨hsize, ?_⟩
    rcases herr with herr | herr
    · exact .inl (by simp [Util.append_buf, herr])
    · exact .inr (by simp [Util.append_buf, herr])
  right
  have hpl : p ∉ l := by
    intro hp
    rcases ht.origin with hfree | hbrk
    · exact hc.apart p hfree hp
    · obtain ⟨b, hb⟩ := hc.queue.links.live hp
      exact absurd (hc.pool.fresh p b hb) (Nat.not_lt.2 hbrk)
  have hqueue : IsQueue s₁.heap chain l := by
    refine hc.queue.frame fun x hx => ?_
    rw [ht.frame x (by rintro rfl; exact hpl hx)]
  obtain ⟨b, hb, hoffset, hlength⟩ := ht.cleared
  obtain ⟨heap, chain', hins, hqueue', hbody, hframe⟩ := hqueue.insertTail hpl hb
  -- the free buffers are neither the new one nor the last one, whose link changes
  have hfree : ∀ x ∈ free', heap x = s₁.heap x := by
    intro x hx
    refine hframe x (fun hxp => ht.not_free (hxp ▸ hx)) fun hlast => ?_
    exact hc.apart x (ht.suffix.subset hx) (List.mem_of_getLast? hlast)
  have hfresh : ∀ x c, heap x = some c → x < s₁.brk := by
    intro x c hx
    have h := hbody x
    rw [hx] at h
    obtain ⟨c', hc', -⟩ := Option.map_eq_some_iff.1 h.symm
    exact ht.pool.fresh x c' hc'
  have hb' := hbody p
  rw [hb] at hb'
  obtain ⟨c, hcp, hcb⟩ := Option.map_eq_some_iff.1 hb'
  simp only [body, Prod.mk.injEq] at hcb
  obtain ⟨hdata, hsize, hoff, hlen⟩ := hcb
  refine ⟨p, { s₁ with heap }, chain', free', by simp [Util.append_buf, hok, hins],
    ⟨hqueue', ⟨ht.pool.queue.frame fun x hx => congrArg (Option.map SLink.next) (hfree x hx), hfresh⟩, ?_⟩,
    ⟨ht.suffix, ?_, ?_, ht.buf_size, ht.brk⟩, ⟨c, hcp, hoff.trans hoffset, hlen.trans hlength⟩, ?_, ?_⟩
  · intro x hx hxl
    rcases List.mem_append.1 hxl with hxl | hxp
    · exact hc.apart x (ht.suffix.subset hx) hxl
    · exact ht.not_free (List.mem_singleton.1 hxp ▸ hx)
  · intro x hx
    rw [List.mem_singleton.1 hx]
    exact ht.origin
  · intro x hx hlast
    have hxp : x ≠ p := fun h => hx (List.mem_singleton.2 h)
    exact (hframe x hxp hlast).trans (ht.frame x hxp)
  · intro hnonneg hmade
    obtain ⟨d, hd, hds, hdb⟩ := ht.made hnonneg hmade
    rw [hb, Option.some.injEq] at hd
    subst hd
    exact ⟨c, hcp, hsize.trans hds, by rw [hdata, hsize]; exact hdb⟩
  · intro x hx
    rw [← ht.frame x hx]
    exact hbody x

end Chain

/-! ## What is written is read -/

/-- The data portion of a buffer. -/
def portion (b : nr_p_buf) : Bytes := (b.data.drop b.r_offset.toNat).take b.length.toNat

/-- The data portion lies in the block. -/
structure Fits (b : nr_p_buf) : Prop where
  block : b.data.length = b.size.toNat
  bound : b.r_offset.toNat + b.length.toNat ≤ b.size.toNat

def Full (b : nr_p_buf) : Prop := b.r_offset.toNat + b.length.toNat = b.size.toNat

/-- Every buffer of `l` satisfies `P`. -/
def EachBuf (h : Heap nr_p_buf) (P : nr_p_buf → Prop) (l : List Ptr) : Prop := ∀ p ∈ l, ∃ b, h p = some b ∧ P b

/-- The data portions of the buffers, one after the other. -/
def contents (h : Heap nr_p_buf) (l : List Ptr) : Bytes := l.flatMap fun p => ((h p).map portion).getD []

theorem contents_append (h : Heap nr_p_buf) (l₁ l₂ : List Ptr) :
    contents h (l₁ ++ l₂) = contents h l₁ ++ contents h l₂ := List.flatMap_append

theorem portion_of_body {b b' : nr_p_buf} (h : body b' = body b) : portion b' = portion b := by
  simp only [body, Prod.mk.injEq] at h
  obtain ⟨hdata, -, hoffset, hlength⟩ := h
  rw [portion, portion, hdata, hoffset, hlength]

theorem contents_congr {h h' : Heap nr_p_buf} {l : List Ptr} (heq : ∀ p ∈ l, (h' p).map body = (h p).map body) :
    contents h' l = contents h l := by
  refine List.flatMap_congr fun p hp => ?_
  have hbody := heq p hp
  cases hb : h p with
  | none =>
    rw [hb, Option.map_none, Option.map_eq_none_iff] at hbody
    rw [hbody]
  | some b =>
    rw [hb] at hbody
    obtain ⟨b', hb', heq'⟩ := Option.map_eq_some_iff.1 hbody
    rw [hb', Option.map_some, Option.map_some, portion_of_body heq']

theorem EachBuf.congr {h h' : Heap nr_p_buf} {P : nr_p_buf → Prop} {l : List Ptr} (hl : EachBuf h P l)
    (hP : ∀ b b', body b' = body b → P b → P b') (heq : ∀ p ∈ l, (h' p).map body = (h p).map body) :
    EachBuf h' P l := by
  intro p hp
  obtain ⟨b, hb, hPb⟩ := hl p hp
  have hbody := heq p hp
  rw [hb] at hbody
  obtain ⟨b', hb', heq'⟩ := Option.map_eq_some_iff.1 hbody
  exact ⟨b', hb', hP b b' heq' hPb⟩

theorem fits_of_body {b b' : nr_p_buf} (h : body b' = body b) (hf : Fits b) : Fits b' := by
  simp only [body, Prod.mk.injEq] at h
  obtain ⟨hdata, hsize, hoffset, hlength⟩ := h
  exact ⟨by rw [hdata, hsize, hf.block], by rw [hoffset, hlength, hsize]; exact hf.bound⟩

theorem full_of_body {b b' : nr_p_buf} (h : body b' = body b) (hf : Full b) : Full b' := by
  simp only [body, Prod.mk.injEq] at h
  obtain ⟨-, hsize, hoffset, hlength⟩ := h
  rw [Full, hoffset, hlength, hsize]
  exact hf

namespace Fits
variable {b : nr_p_buf}

theorem lt (hf : Fits b) : b.length.toNat + b.r_offset.toNat < 2 ^ 32 := by
  have h := hf.bound
  have hlt := b.size.toNat_lt
  omega

/-- Where the data portion ends. -/
theorem toNat_end (hf : Fits b) : (b.length + b.r_offset).toNat = b.length.toNat + b.r_offset.toNat := by
  rw [UInt32.toNat_add, Nat.mod_eq_of_lt hf.lt]

theorem toNat_room (hf : Fits b) : b.room.toNat = b.size.toNat - (b.length.toNat + b.r_offset.toNat) := by
  have h := hf.bound
  rw [nr_p_buf.room, UInt32.toNat_sub_of_le, hf.toNat_end]
  rw [UInt32.le_iff_toNat_le, hf.toNat_end]
  omega

/-- Bytes for which there is room come behind the data portion. -/
theorem take (hf : Fits b) {data : Bytes} {towrite : Nat} (hlen : towrite ≤ data.length)
    (hroom : towrite ≤ b.room.toNat) (hint : towrite < 2 ^ 31) :
    ∃ b', b.take data towrite = some b' ∧ Fits b' ∧ portion b' = portion b ++ data.take towrite ∧
      b'.entry = b.entry ∧ b'.size = b.size ∧ b'.r_offset = b.r_offset ∧
      b'.length.toNat = b.length.toNat + towrite := by
  have hbound := hf.bound
  have hblock := hf.block
  have hlt := b.size.toNat_lt
  rw [hf.toNat_room] at hroom
  have hsrc : (data.take towrite).length = towrite := by rw [List.length_take, Nat.min_eq_left hlen]
  have hlength : (b.length + UInt32.ofNat towrite).toNat = b.length.toNat + towrite := by
    rw [UInt32.toNat_add, UInt32.toNat_ofNat_of_lt' (by rw [UInt32.size]; omega), Nat.mod_eq_of_lt (by omega)]
  let block := b.data.take (b.length.toNat + b.r_offset.toNat) ++ data.take towrite ++
    b.data.drop (b.length.toNat + b.r_offset.toNat + towrite)
  have hcopy : memcpy b.data (b.length + b.r_offset).toNat (data.take towrite) = some block := by
    rw [memcpy, hf.toNat_end, hsrc, if_pos (by omega)]
  refine ⟨{ b with data := block, length := b.length + UInt32.ofNat towrite }, ?_, ⟨?_, ?_⟩, ?_, rfl, rfl, rfl, hlength⟩
  · rw [nr_p_buf.take, if_neg (by omega), hcopy]
    rfl
  · simp only [block, List.length_append, List.length_take, List.length_drop]
    omega
  · show b.r_offset.toNat + (b.length + UInt32.ofNat towrite).toNat ≤ b.size.toNat
    rw [hlength]
    omega
  · have hportion : (portion b).length = b.length.toNat := by
      rw [portion, List.length_take, List.length_drop]
      omega
    have hsplit : b.data.take (b.length.toNat + b.r_offset.toNat) = b.data.take b.r_offset.toNat ++ portion b := by
      rw [Nat.add_comm, List.take_add, portion]
    have hfront : (b.data.take b.r_offset.toNat).length = b.r_offset.toNat := by
      rw [List.length_take]
      omega
    show (block.drop b.r_offset.toNat).take (b.length + UInt32.ofNat towrite).toNat = _
    rw [hlength]
    simp only [block, hsplit, List.append_assoc]
    rw [List.drop_left' hfront, ← List.append_assoc, List.take_left']
    rw [List.length_append, hportion, hsrc]

end Fits

/-! ## Writing to a chain -/

/-- The buffers of `new` hold `data`, all but the last are full, none was
appended for nothing, and those of `l` hold what they held. -/
structure Written (s s' : Buffers) (l new : List Ptr) (data : Bytes) : Prop where
  old : ∀ p ∈ l, (s'.heap p).map body = (s.heap p).map body
  holds : contents s'.heap new = data
  fits : EachBuf s'.heap Fits new
  full : EachBuf s'.heap Full new.dropLast
  used : data = [] → new = []

theorem Written.refl (s : Buffers) (l : List Ptr) : Written s s l [] [] where
  old _ _ := rfl
  holds := rfl
  fits _ hp := by cases hp
  full _ hp := by cases hp
  used _ := rfl

theorem room_pos {s : Buffers} (hsize : 1 ≤ s.ctx.buf_size) :
    0 < s.ctx.buf_size.toUInt32.toNat ∧ s.ctx.buf_size.toUInt32.toNat < 2 ^ 31 := by
  have hpos : 1 ≤ s.ctx.buf_size.toInt := Int32.le_iff_toInt_le.1 hsize
  have hcond := BitVec.toInt_eq_toNat_cond s.ctx.buf_size.toBitVec
  rw [Int32.toInt_toBitVec] at hcond
  have hlt := s.ctx.buf_size.toBitVec.isLt
  show 0 < s.ctx.buf_size.toBitVec.toNat ∧ s.ctx.buf_size.toBitVec.toNat < 2 ^ 31
  split at hcond <;> omega

theorem contents_singleton {h : Heap nr_p_buf} {p : Ptr} {b : nr_p_buf} (hb : h p = some b) :
    contents h [p] = portion b := by
  simp [contents, hb]

theorem portion_nil {b : nr_p_buf} (h : b.length = 0) : portion b = [] := by
  rw [portion, h]
  exact List.take_zero

/-- Following a round that filled the last buffer `p` of the chain. -/
theorem Written.cons {s s₁ s' : Buffers} {l new : List Ptr} {p : Ptr} {data rest : Bytes} {b : nr_p_buf}
    (hw : Written s₁ s' (l ++ [p]) new rest) (hold : ∀ x ∈ l, (s₁.heap x).map body = (s.heap x).map body)
    (hb : s₁.heap p = some b) (hf : Fits b) (hportion : portion b = data) (hfull : rest ≠ [] → Full b)
    (hne : data ≠ []) : Written s s' l (p :: new) (data ++ rest) := by
  have hp := hw.old p (by simp)
  rw [hb] at hp
  obtain ⟨b', hb', hbody⟩ := Option.map_eq_some_iff.1 hp
  refine ⟨fun x hx => (hw.old x (by simp [hx])).trans (hold x hx), ?_, ?_, ?_, fun h => absurd (List.append_eq_nil_iff.1 h).1 hne⟩
  · rw [← List.singleton_append, contents_append, contents_singleton hb', portion_of_body hbody, hportion, hw.holds]
  · intro x hx
    rcases List.mem_cons.1 hx with rfl | hx
    · exact ⟨b', hb', fits_of_body hbody hf⟩
    · exact hw.fits x hx
  · intro x hx
    cases new with
    | nil => cases hx
    | cons y new =>
      rw [List.dropLast_cons_of_ne_nil (List.cons_ne_nil _ _)] at hx
      rcases List.mem_cons.1 hx with rfl | hx
      · refine ⟨b', hb', full_of_body hbody (hfull ?_)⟩
        rintro rfl
        cases hw.used rfl
      · exact hw.full x hx

/-- From the second round on each round fills a new buffer, so there is at most
one for each byte. The induction is on the number of bytes that are left. -/
theorem write_loop_none {s : Buffers} {chain : Head} {l free : List Ptr} (hc : Chain s chain l free)
    (hmade : ∀ p ∈ free, Made s p) (hsize : 1 ≤ s.ctx.buf_size) (data : Bytes) :
    ∃ s' chain' new free', (∀ n ≥ data.length, write_loop junk n s chain none data = some (.ok, s', chain')) ∧
      Chain s' chain' (l ++ new) free' ∧ Grown s s' l free new free' ∧ Written s s' l new data := by
  induction hlen : data.length using Nat.strongRecOn generalizing s chain l free data with
  | ind len ih =>
  cases data with
  | nil =>
    refine ⟨s, chain, [], free, fun n _ => by rw [write_loop], by rwa [List.append_nil], .refl s l free,
      .refl s l⟩
  | cons c data =>
    rcases hc.append_buf junk with ⟨hneg, -⟩ | ⟨p, s₁, chain₁, free₁, hap, hc₁, hg₁, ⟨b, hb, hoff, hlength⟩, hmade₁, hold₁⟩
    · exact absurd hsize (by rw [Int32.not_le]; exact Int32.lt_trans hneg (by decide))
    obtain ⟨b', hb', hbs, hbb⟩ := hmade₁ (Int32.le_trans (by decide) hsize) hmade
    rw [hb, Option.some.injEq] at hb'
    subst hb'
    have hf : Fits b := ⟨hbb, by rw [hoff, hlength]; exact Nat.zero_le _⟩
    obtain ⟨hpos, hint⟩ := room_pos (s := s₁) (by rw [hg₁.buf_size]; exact hsize)
    have hroom : b.room.toNat = b.size.toNat := by
      rw [hf.toNat_room, hoff, hlength]
      rfl
    rw [← hbs, ← hroom] at hpos hint
    -- the round: `towrite` bytes go into the new buffer
    let towrite := min (c :: data).length b.room.toNat
    have hleft : towrite ≤ (c :: data).length := Nat.min_le_left ..
    have hright : towrite ≤ b.room.toNat := Nat.min_le_right ..
    have hone : 0 < towrite := Nat.lt_min.2 ⟨Nat.succ_pos _, hpos⟩
    obtain ⟨b', htake, hf', hportion, hentry, hsize', hoff', hlength'⟩ := hf.take hleft hright (Nat.lt_of_le_of_lt hright hint)
    obtain ⟨hc₂, hg₂⟩ := hc₁.update_last (by rw [List.getLast?_concat]) hb hentry
    have hg := hg₁.trans hg₂
    rw [List.append_nil] at hg
    have hrest : ((c :: data).drop towrite).length < len := by
      rw [List.length_drop, hlen]
      omega
    obtain ⟨s', chain', new, free', hloop, hc', hg', hw'⟩ :=
      ih _ hrest hc₂ (hg.made hc₂ hmade) (by rw [hg.buf_size]; exact hsize) _ rfl
    refine ⟨s', chain', p :: new, free', fun n hn => ?_, ?_, hg.trans hg', ?_⟩
    · obtain ⟨n, rfl⟩ : ∃ m, n = m + 1 := ⟨n - 1, by rw [← hlen, List.length_cons] at hn; omega⟩
      have hround := hloop n (by omega)
      simp only [write_loop, hap, Option.bind_eq_bind, Option.bind_some, hb]
      rw [show b.take (c :: data) (min (c :: data).length b.room.toNat) = some b' from htake, Option.bind_some]
      exact hround
    · rw [List.append_assoc] at hc'
      exact hc'
    · have hold : ∀ x ∈ l, (Function.update s₁.heap p (some b') x).map body = (s.heap x).map body := by
        intro x hx
        have hxp : x ≠ p := fun h => (List.nodup_append.1 hc₁.queue.nodup).2.2 x hx p (by simp) h
        rw [Function.update_of_ne hxp, hold₁ x hxp]
      have hfirst : portion b' = (c :: data).take towrite := by rw [hportion, portion_nil hlength, List.nil_append]
      have hfull : (c :: data).drop towrite ≠ [] → Full b' := by
        intro hne
        rw [Ne, List.drop_eq_nil_iff, Nat.not_le] at hne
        have hall : towrite = b.room.toNat := by omega
        rw [Full, hoff', hoff, hlength', hlength, hsize', hall, hroom]
        show 0 + (0 + b.size.toNat) = b.size.toNat
        omega
      have hsome : (c :: data).take towrite ≠ [] := by
        rw [Ne, List.take_eq_nil_iff]
        rintro (h | h)
        · omega
        · cases h
      have h := hw'.cons hold (Function.update_self ..) hf' hfirst hfull hsome
      rwa [List.take_append_drop] at h

theorem take_entry {b b' : nr_p_buf} {data : Bytes} {towrite : Nat} (h : b.take data towrite = some b') :
    b'.entry = b.entry := by
  rw [nr_p_buf.take] at h
  split at h
  · cases h
  · obtain ⟨block, -, rfl⟩ := Option.map_eq_some_iff.1 h
    rfl

/-- A write that comes to an end grows the chain. -/
theorem write_loop_grown {n : Nat} {s s' : Buffers} {chain chain' : Head} {l free : List Ptr} {buf : Option Ptr}
    {data : Bytes} {r : Status} (hc : Chain s chain l free) (hbuf : buf = none ∨ buf = l.getLast?)
    (h : write_loop junk n s chain buf data = some (r, s', chain')) :
    ∃ new free', Chain s' chain' (l ++ new) free' ∧ Grown s s' l free new free' := by
  induction n generalizing s chain l free buf data with
  | zero =>
    cases data with
    | nil =>
      cases h
      exact ⟨[], free, by rwa [List.append_nil], .refl _ l free⟩
    | cons c data => cases h
  | succ n ih =>
    cases data with
    | nil =>
      cases h
      exact ⟨[], free, by rwa [List.append_nil], .refl _ l free⟩
    | cons c data =>
      simp only [write_loop, Option.bind_eq_bind, Option.bind_eq_some_iff] at h
      obtain ⟨⟨r₁, s₁, chain₁⟩, hnext, h⟩ := h
      -- the buffer of this round: none yet, or the last of the chain
      have hround : r₁ = .error .R_NO_MEMORY ∧ s₁ = s ∧ chain₁ = chain ∨
          ∃ p new free₁, r₁ = .ok p ∧ (l ++ new).getLast? = some p ∧ Chain s₁ chain₁ (l ++ new) free₁ ∧
            Grown s s₁ l free new free₁ := by
        cases buf with
        | some p =>
          cases hnext
          have hlast : l.getLast? = some p := by
            rcases hbuf with hbuf | hbuf
            · cases hbuf
            · exact hbuf.symm
          exact .inr ⟨p, [], free, rfl, by rwa [List.append_nil], by rwa [List.append_nil], .refl s l free⟩
        | none =>
          have hap : append_buf junk s chain = some (r₁, s₁, chain₁) := hnext
          rcases hc.append_buf junk with ⟨-, herr⟩ | ⟨p, s₂, chain₂, free₂, hok, hc₂, hg₂, -⟩
          · rcases herr with herr | herr
            · rw [herr] at hap
              cases hap
            · rw [herr] at hap
              cases hap
              exact .inl ⟨rfl, rfl, rfl⟩
          · rw [hok] at hap
            cases hap
            exact .inr ⟨p, [p], free₂, rfl, List.getLast?_concat, hc₂, hg₂⟩
      rcases hround with ⟨rfl, rfl, rfl⟩ | ⟨p, new, free₁, rfl, hlast, hc₁, hg₁⟩
      · cases h
        exact ⟨[], free, by rwa [List.append_nil], .refl _ l free⟩
      · obtain ⟨b, hb, b', htake, h⟩ := by simpa only [Option.bind_eq_some_iff] using h
        obtain ⟨hc₂, hg₂⟩ := hc₁.update_last hlast hb (take_entry htake)
        obtain ⟨new', free', hc', hg'⟩ := ih hc₂ (.inl rfl) h
        have hg := hg₁.trans hg₂
        rw [List.append_nil] at hg
        exact ⟨new ++ new', free', by rwa [← List.append_assoc], hg.trans hg'⟩

theorem write_buf {s : Buffers} {chain : Head} {l free : List Ptr} (hc : Chain s chain l free) :
    (if chain.first.isNone then none else chain.last) = l.getLast? := by
  rw [hc.queue.first_eq, hc.queue.last]
  cases l <;> simp

theorem nr_p_buf_write_to_chain_grown {n : Nat} {s s' : Buffers} {chain chain' : Head} {l free : List Ptr} {data : Bytes}
    {r : Status} (hc : Chain s chain l free) (h : nr_p_buf_write_to_chain junk n s chain data = some (r, s', chain')) :
    ∃ new free', Chain s' chain' (l ++ new) free' ∧ Grown s s' l free new free' :=
  write_loop_grown junk hc (.inr (write_buf hc)) h

/-- Writing `data` to the chain of `l` comes to an end and appends it: the last
buffer and new ones take it, all of these but the last are full, and no other
buffer is touched. -/
def Appends (s : Buffers) (chain : Head) (l free : List Ptr) (data : Bytes) : Prop :=
  ∃ s' chain' new free', (∃ N, ∀ n ≥ N, nr_p_buf_write_to_chain junk n s chain data = some (.ok, s', chain')) ∧
    Chain s' chain' (l ++ new) free' ∧ contents s'.heap (l ++ new) = contents s.heap l ++ data ∧
    EachBuf s'.heap Fits (l ++ new) ∧ EachBuf s'.heap Full new.dropLast ∧ (∀ p ∈ new, p ∈ free ∨ s.brk ≤ p) ∧
    ∀ x, x ∉ new → l.getLast? ≠ some x → s'.heap x = s.heap x

/-- With a last buffer `p`, the first round fills it up. -/
theorem write_loop_some {s : Buffers} {chain : Head} {l free : List Ptr} {p : Ptr} {b : nr_p_buf} {c : UInt8} {data : Bytes}
    (hc : Chain s chain (l ++ [p]) free) (hb : s.heap p = some b) (hf : Fits b)
    (hint : min (c :: data).length b.room.toNat < 2 ^ 31) :
    ∃ b' towrite, towrite ≤ (c :: data).length ∧ portion b' = portion b ++ (c :: data).take towrite ∧ Fits b' ∧
      Chain { s with heap := Function.update s.heap p (some b') } chain (l ++ [p]) free ∧
      Grown s { s with heap := Function.update s.heap p (some b') } (l ++ [p]) free [] free ∧
      ∀ n, write_loop junk (n + 1) s chain (some p) (c :: data) =
        write_loop junk n { s with heap := Function.update s.heap p (some b') } chain none ((c :: data).drop towrite) := by
  obtain ⟨b', htake, hf', hportion, hentry, -⟩ := hf.take (Nat.min_le_left ..) (Nat.min_le_right ..) hint
  obtain ⟨hc', hg⟩ := hc.update_last (by rw [List.getLast?_concat]) hb hentry
  refine ⟨b', _, Nat.min_le_left .., hportion, hf', hc', hg, fun n => ?_⟩
  simp only [write_loop, Option.bind_eq_bind, Option.bind_some, hb]
  rw [htake, Option.bind_some]

/-- A write appends if what goes into the last buffer is less than 2^31 bytes,
which it is in a buffer that a context made. -/
theorem nr_p_buf_write_to_chain_appends {s : Buffers} {chain : Head} {l free : List Ptr} (hc : Chain s chain l free)
    (hmade : ∀ p ∈ free, Made s p) (hfits : EachBuf s.heap Fits l) (hsize : 1 ≤ s.ctx.buf_size) (data : Bytes)
    (hint : ∀ p b, l.getLast? = some p → s.heap p = some b → min data.length b.room.toNat < 2 ^ 31) :
    Appends junk s chain l free data := by
  -- once the last buffer is filled up
  have hnone : ∀ (s₁ : Buffers) (rest front : Bytes), Chain s₁ chain l free → Grown s s₁ l free [] free →
      EachBuf s₁.heap Fits l → contents s₁.heap l = contents s.heap l ++ front → front ++ rest = data →
      (∃ k, ∀ n, write_loop junk (n + k) s chain l.getLast? data = write_loop junk n s₁ chain none rest) →
      Appends junk s chain l free data := by
    rintro s₁ rest front hc₁ hg₁ hfits₁ hfront rfl ⟨k, hk⟩
    have hmade₁ := hg₁.made (by rwa [List.append_nil]) hmade
    obtain ⟨s', chain', new, free', hloop, hc', hg', hw⟩ :=
      write_loop_none junk hc₁ hmade₁ (by rw [hg₁.buf_size]; exact hsize) rest
    have hg : Grown s s' l free new free' := hg₁.trans (by rwa [List.append_nil])
    refine ⟨s', chain', new, free', ⟨rest.length + k, fun n hn => ?_⟩, hc', ?_, ?_, hw.full, hg.origin, hg.frame⟩
    · obtain ⟨m, rfl⟩ : ∃ m, n = m + k := ⟨n - k, by omega⟩
      rw [nr_p_buf_write_to_chain, write_buf hc, hk, hloop m (by omega)]
    · rw [contents_append, hw.holds, contents_congr hw.old, hfront, List.append_assoc]
    · intro p hp
      rcases List.mem_append.1 hp with hp | hp
      · exact hfits₁.congr (fun _ _ => fits_of_body) hw.old p hp
      · exact hw.fits p hp
  cases data with
  | nil =>
    refine hnone s [] [] hc (.refl s l free) hfits (by simp) rfl ⟨0, fun n => ?_⟩
    rw [write_loop, write_loop]
  | cons c data =>
    rcases List.eq_nil_or_concat l with rfl | ⟨l, p, rfl⟩
    · exact hnone s (c :: data) [] hc (.refl s [] free) hfits (by simp) rfl ⟨0, fun n => rfl⟩
    rw [List.concat_eq_append] at *
    have hlast : (l ++ [p]).getLast? = some p := List.getLast?_concat
    obtain ⟨b, hb, hf⟩ := hfits p (by simp)
    obtain ⟨b', towrite, -, hportion, hf', hc', hg', hloop⟩ := write_loop_some junk hc hb hf (hint p b hlast hb)
    have hpl : ∀ x ∈ l, x ≠ p := fun x hx => (List.nodup_append.1 hc.queue.nodup).2.2 x hx p (by simp)
    have hl : ∀ x ∈ l, Function.update s.heap p (some b') x = s.heap x := fun x hx => Function.update_of_ne (hpl x hx) _ _
    refine hnone _ ((c :: data).drop towrite) ((c :: data).take towrite) hc' hg' ?_ ?_ (List.take_append_drop ..)
      ⟨1, fun n => by rw [hlast]; exact hloop n⟩
    · intro x hx
      rcases List.mem_append.1 hx with hx | hx
      · obtain ⟨e, he, hfe⟩ := hfits x (by simp [hx])
        exact ⟨e, by rw [← he]; exact hl x hx, hfe⟩
      · rw [List.mem_singleton.1 hx]
        exact ⟨b', Function.update_self .., hf'⟩
    · rw [contents_append, contents_append, contents_singleton (Function.update_self ..), contents_singleton hb, hportion,
        List.append_assoc, contents_congr fun x hx => congrArg (Option.map body) (hl x hx)]

/-- A chain of one buffer, partly read and partly filled, and a free buffer with
what it held before. -/
def halfway : Buffers where
  ctx := { buf_size := 2, free_list := ⟨some 1, some 1⟩ }
  heap p :=
    if p = 0 then some { data := [9, 1, 2, 0], size := 4, r_offset := 1, length := 2 }
    else if p = 1 then some { data := [7, 8], size := 2, r_offset := 1, length := 1 } else none
  brk := 2

theorem halfway_appends : Appends (fun _ _ => 0) halfway ⟨some 0, some 0⟩ [0] [1] [3, 4, 5, 6] := by
  have hfresh : ∀ p b, halfway.heap p = some b → p < 2 := by
    intro p b h
    by_contra hp
    have h0 : p ≠ 0 := fun h0 => hp (by rw [h0]; decide)
    have h1 : p ≠ 1 := fun h1 => hp (by rw [h1]; decide)
    simp [halfway, h0, h1] at h
  have hc : Chain halfway ⟨some 0, some 0⟩ [0] [1] :=
    ⟨⟨⟨rfl, _, rfl, rfl⟩, rfl, List.nodup_singleton 0⟩,
      ⟨⟨⟨rfl, _, rfl, rfl⟩, rfl, List.nodup_singleton 1⟩, hfresh⟩, by simp⟩
  refine nr_p_buf_write_to_chain_appends _ hc ?_ ?_ (by decide) _ ?_
  · intro p hp
    rw [List.mem_singleton.1 hp]
    exact ⟨_, rfl, rfl, rfl⟩
  · intro p hp
    rw [List.mem_singleton.1 hp]
    exact ⟨_, rfl, ⟨rfl, by decide⟩⟩
  · intro p b _ _
    exact Nat.lt_of_le_of_lt (Nat.min_le_left ..) (by decide)

/-- A chain of one buffer that was not made by a context. -/
def oneBuf (b : nr_p_buf) : Buffers where
  ctx := { buf_size := 1, free_list := Head.empty }
  heap p := if p = 0 then some b else none
  brk := 1

/-- An empty buffer of 2^31 bytes. -/
def wide : nr_p_buf where
  data := List.replicate (2 ^ 31) 0
  size := 0x80000000
  r_offset := 0
  length := 0

/-- Into a buffer that is wider than an `int` counts, writing 2^31 bytes is
undefined, though the chain and the context are as they should be. -/
theorem wide_not_appends :
    Chain (oneBuf wide) ⟨some 0, some 0⟩ [0] [] ∧ EachBuf (oneBuf wide).heap Fits [0] ∧ 1 ≤ (oneBuf wide).ctx.buf_size ∧
      ¬ Appends (fun _ _ => 0) (oneBuf wide) ⟨some 0, some 0⟩ [0] [] (List.replicate (2 ^ 31) 0) := by
  have hc : Chain (oneBuf wide) ⟨some 0, some 0⟩ [0] [] := by
    refine ⟨⟨⟨rfl, _, rfl, rfl⟩, rfl, List.nodup_singleton 0⟩, ⟨isQueue_empty _, fun p b h => ?_⟩, by simp⟩
    by_contra hp
    have h0 : p ≠ 0 := fun h0 => hp (by rw [h0]; exact Nat.one_pos)
    simp [oneBuf, h0] at h
  have hf : Fits wide := ⟨List.length_replicate, by decide⟩
  refine ⟨hc, ?_, by decide, ?_⟩
  · intro p hp
    rw [List.mem_singleton.1 hp]
    exact ⟨wide, rfl, hf⟩
  rintro ⟨s', chain', new, free', ⟨N, hN⟩, -⟩
  have hwrite := hN (N + 1) (Nat.le_succ N)
  have hroom : wide.room.toNat = 2 ^ 31 := by decide
  obtain ⟨c, data, hdata⟩ : ∃ c data, List.replicate (2 ^ 31) (0 : UInt8) = c :: data :=
    ⟨0, List.replicate (2 ^ 31 - 1) 0, List.replicate_succ⟩
  have hlen : (c :: data).length = 2 ^ 31 := by rw [← hdata, List.length_replicate]
  rw [nr_p_buf_write_to_chain, write_buf hc, hdata] at hwrite
  have hb : (oneBuf wide).heap 0 = some wide := rfl
  have hlast : ([0] : List Ptr).getLast? = some 0 := rfl
  have htake : wide.take (c :: data) (min (c :: data).length wide.room.toNat) = none := by
    rw [hlen, hroom, Nat.min_self, nr_p_buf.take, if_pos (Nat.le_refl _)]
  rw [hlast] at hwrite
  simp only [write_loop, Option.bind_eq_bind, Option.bind_some, hb, htake] at hwrite
  cases hwrite

end Nrappkit.Util
