import Nrappkit.Util.PBuf
import Nrappkit.Lib.Runs
/-!
# The chains of a context

Any number of chains that take their buffers from one context, and the buffers
that callers hold. A machine runs `nr_p_buf_alloc`, `nr_p_buf_free`,
`nr_p_buf_write_to_chain` and `nr_p_buf_free_chain` in any order; a buffer that
is freed is one that a caller holds, and the head of a chain that was freed is
not used before it is initialized. `Owned` is its invariant: every buffer is in
one place.
-/
open Lib Lib.SLink

namespace Nrappkit.Util

structure World where
  s : Buffers
  chain : Nat → Head
  /-- The buffers that callers got from `nr_p_buf_alloc`. -/
  held : List Ptr
  /-- The chains that were freed and not initialized since. -/
  stale : Nat → Bool

inductive ChainOp where
  | alloc
  | free (buf : Ptr)
  /-- A write that takes at most `n` rounds. -/
  | write (k : Nat) (data : Bytes) (n : Nat)
  | free_chain (k : Nat)
  | init (k : Nat)

/-- The chain an operation is about. -/
def ChainOp.chain? : ChainOp → Option Nat
  | .write k .. | .free_chain k | .init k => some k
  | .alloc | .free _ => none

variable (junk : Ptr → Nat → UInt8)

def chainStep (w : World) : ChainOp → Option (Status × World)
  | .alloc => do
    match ← nr_p_buf_alloc junk w.s with
    | (.error r, s) => some (r, { w with s })
    | (.ok buf, s) => some (.ok, { w with s, held := buf :: w.held })
  | .free buf => do
    let (r, s) ← nr_p_buf_free w.s buf
    some (r, { w with s, held := w.held.erase buf })
  | .write k data n => do
    let (r, s, chain) ← nr_p_buf_write_to_chain junk n w.s (w.chain k) data
    some (r, { w with s, chain := Function.update w.chain k chain })
  | .free_chain k => do
    let (r, s) ← nr_p_buf_free_chain w.s (w.chain k)
    some (r, { w with s, stale := Function.update w.stale k true })
  | .init k => some (.ok,
      { w with chain := Function.update w.chain k Head.empty, stale := Function.update w.stale k false })

/-- What the callers keep to. -/
def ChainOp.Allowed (w : World) : ChainOp → Prop
  | .free buf => buf ∈ w.held
  | .write k .. | .free_chain k => w.stale k = false
  | .alloc | .init _ => True

/-- A new context, and chains that are initialized. -/
def World.create (size : Int32) : World where
  s := nr_p_buf_ctx_create size
  chain _ := Head.empty
  held := []
  stale _ := false

inductive Place where
  | chain (k : Nat)
  | free
  | hand
  deriving DecidableEq

/-- Where a buffer is: on the links of a chain or of the free list, or held. -/
def World.At (w : World) (p : Ptr) : Place → Prop
  | .chain k => w.stale k = false ∧ ∃ l, Links w.s.heap (w.chain k).first l none ∧ p ∈ l
  | .free => ∃ l, Links w.s.heap w.s.ctx.free_list.first l none ∧ p ∈ l
  | .hand => p ∈ w.held

/-! ## Places -/

/-- No address is in two places. -/
def Apart (own : Place → List Ptr) : Prop := ∀ a b, a ≠ b → ∀ p ∈ own a, p ∉ own b

/-- What is moved is moved to one place, and is nowhere else then. -/
theorem Apart.move {own own' : Place → List Ptr} (h : Apart own) (d : Place) (hsub : ∀ c, c ≠ d → own' c ⊆ own c)
    (hto : ∀ p ∈ own' d, p ∈ own d ∨ ∀ c, c ≠ d → p ∉ own' c) : Apart own' := by
  intro a b hab p ha hb
  by_cases had : a = d
  · subst had
    rcases hto p ha with hold | hnew
    · exact h a b hab p hold (hsub b hab.symm hb)
    · exact hnew b hab.symm hb
  · by_cases hbd : b = d
    · subst hbd
      rcases hto p hb with hold | hnew
      · exact h a b hab p (hsub a had ha) hold
      · exact hnew a had ha
    · exact h a b hab p (hsub a had ha) (hsub b hbd hb)

/-- The buffers of each place. The chains that are not stale are queues. -/
structure Owned (w : World) (own : Place → List Ptr) : Prop where
  pool : Pool w.s (own .free)
  queue : ∀ k, w.stale k = false → IsQueue w.s.heap (w.chain k) (own (.chain k))
  gone : ∀ k, w.stale k = true → own (.chain k) = []
  hand : own .hand = w.held
  once : w.held.Nodup
  live : ∀ p ∈ w.held, ∃ b, w.s.heap p = some b
  apart : Apart own

namespace Owned
variable {w : World} {own : Place → List Ptr}

theorem create (size : Int32) : Owned (World.create size) fun _ => [] where
  pool := ⟨isQueue_empty _, fun _ _ h => by cases h⟩
  queue _ _ := isQueue_empty _
  gone _ h := by cases h
  hand := rfl
  once := List.nodup_nil
  live _ hp := by cases hp
  apart _ _ _ _ hp := by cases hp

theorem alive (h : Owned w own) {a : Place} {p : Ptr} (hp : p ∈ own a) : ∃ b, w.s.heap p = some b := by
  cases a with
  | chain k =>
    cases hk : w.stale k with
    | false => exact (h.queue k hk).links.live hp
    | true =>
      rw [h.gone k hk] at hp
      cases hp
  | free => exact h.pool.queue.links.live hp
  | hand => exact h.live p (h.hand ▸ hp)

theorem lt (h : Owned w own) {a : Place} {p : Ptr} (hp : p ∈ own a) : p < w.s.brk := by
  obtain ⟨b, hb⟩ := h.alive hp
  exact h.pool.fresh p b hb

/-- A buffer on the links of a place is one that the place owns. -/
theorem of_at (h : Owned w own) {p : Ptr} {a : Place} (hp : w.At p a) : p ∈ own a := by
  cases a with
  | chain k =>
    obtain ⟨hk, l, hl, hpl⟩ := hp
    rwa [(h.queue k hk).links.unique hl]
  | free =>
    obtain ⟨l, hl, hpl⟩ := hp
    rwa [h.pool.queue.links.unique hl]
  | hand => rwa [h.hand]

theorem chain_ctx (h : Owned w own) {k : Nat} (hk : w.stale k = false) :
    Chain w.s (w.chain k) (own (.chain k)) (own .free) :=
  ⟨h.queue k hk, h.pool, h.apart .free (.chain k) (by simp)⟩

end Owned

/-! ## One step -/

/-- What a step leaves alone: the buffers of the chains it is not about. -/
def Untouched (op : ChainOp) (w w' : World) (own : Place → List Ptr) : Prop :=
  ∀ k, op.chain? ≠ some k → w'.chain k = w.chain k ∧ w'.stale k = w.stale k ∧ ∀ p ∈ own (.chain k), w'.s.heap p = w.s.heap p

theorem queue_kept {w w' : World} {own : Place → List Ptr} {op : ChainOp} (h : Owned w own) (hu : Untouched op w w' own)
    {k : Nat} (hop : op.chain? ≠ some k) (hk : w'.stale k = false) : IsQueue w'.s.heap (w'.chain k) (own (.chain k)) := by
  obtain ⟨hchain, hstale, hheap⟩ := hu k hop
  rw [hchain]
  exact (h.queue k (hstale ▸ hk)).frame fun p hp => by rw [hheap p hp]

theorem alloc_step {w w' : World} {own : Place → List Ptr} {r : Status} (h : Owned w own)
    (hst : chainStep junk w .alloc = some (r, w')) : ∃ own', Owned w' own' ∧ Untouched .alloc w w' own := by
  rcases nr_p_buf_alloc_spec junk h.pool with ⟨-, herr⟩ | ⟨p, s', free', hok, ht⟩
  · rcases herr with herr | herr
    · simp only [chainStep, herr, Option.bind_eq_bind, Option.bind_none] at hst
      cases hst
    simp only [chainStep, herr, Option.bind_eq_bind, Option.bind_some] at hst
    cases hst
    exact ⟨own, ⟨h.pool, h.queue, h.gone, h.hand, h.once, h.live, h.apart⟩, fun _ _ => ⟨rfl, rfl, fun _ _ => rfl⟩⟩
  simp only [chainStep, hok, Option.bind_eq_bind, Option.bind_some] at hst
  cases hst
  -- the buffer was free or is new, so no one else has it
  have hnew : ∀ a, a ≠ Place.free → p ∉ own a := by
    intro a ha hp
    rcases ht.origin with hfree | hbrk
    · exact h.apart .free a ha.symm p hfree hp
    · exact absurd (h.lt hp) (Nat.not_lt.2 hbrk)
  have hu : Untouched .alloc w { w with s := s', held := p :: w.held } own := by
    intro k _
    refine ⟨rfl, rfl, fun x hx => ht.frame x ?_⟩
    rintro rfl
    exact hnew (.chain k) (by simp) hx
  let own' := Function.update (Function.update own .free free') .hand (p :: w.held)
  have hfree : own' .free = free' := by simp [own']
  have hhand : own' .hand = p :: w.held := by simp [own']
  have hchain : ∀ k, own' (.chain k) = own (.chain k) := fun k => by simp [own']
  refine ⟨own', ⟨by rw [hfree]; exact ht.pool, fun k hk => ?_, fun k hk => ?_, hhand, ?_, ?_, ?_⟩, hu⟩
  · rw [hchain]
    exact queue_kept h hu (by simp [ChainOp.chain?]) hk
  · rw [hchain]
    exact h.gone k hk
  · exact List.nodup_cons.2 ⟨fun hp => hnew .hand (by simp) (by rwa [h.hand]), h.once⟩
  · intro x hx
    by_cases hxp : x = p
    · rw [hxp]
      obtain ⟨b, hb, -⟩ := ht.cleared
      exact ⟨b, hb⟩
    · obtain ⟨b, hb⟩ := h.live x ((List.mem_cons.1 hx).resolve_left hxp)
      exact ⟨b, by rw [← hb]; exact ht.frame x hxp⟩
  · refine h.apart.move .hand (fun c hc => ?_) fun x hx => ?_
    · cases c with
      | chain k => rw [hchain]; exact fun _ h => h
      | free => rw [hfree]; exact ht.suffix.subset
      | hand => exact absurd rfl hc
    · rw [hhand] at hx
      rcases List.mem_cons.1 hx with rfl | hx
      · right
        intro c hc
        cases c with
        | chain k => rw [hchain]; exact hnew _ (by simp)
        | free => rw [hfree]; exact ht.not_free
        | hand => exact absurd rfl hc
      · exact .inl (by rwa [h.hand])

theorem free_step {w w' : World} {own : Place → List Ptr} {buf : Ptr} {r : Status} (h : Owned w own)
    (hheld : buf ∈ w.held) (hst : chainStep junk w (.free buf) = some (r, w')) :
    ∃ own', Owned w' own' ∧ Untouched (.free buf) w w' own := by
  have hbuf : buf ∈ own .hand := by rwa [h.hand]
  obtain ⟨b, hb⟩ := h.live buf hheld
  obtain ⟨s', hfr, hf⟩ := nr_p_buf_free_spec h.pool (h.apart .hand .free (by simp) buf hbuf) hb
  simp only [chainStep, hfr, Option.bind_eq_bind, Option.bind_some] at hst
  cases hst
  have hu : Untouched (.free buf) w { w with s := s', held := w.held.erase buf } own := by
    intro k _
    refine ⟨rfl, rfl, fun x hx => hf.frame x (fun hxb => ?_) fun hlast => ?_⟩
    · exact h.apart .hand (.chain k) (by simp) buf hbuf (List.mem_singleton.1 hxb ▸ hx)
    · exact h.apart .free (.chain k) (by simp) x (List.mem_of_getLast? hlast) hx
  let own' := Function.update (Function.update own .free (own .free ++ [buf])) .hand (w.held.erase buf)
  have hfree : own' .free = own .free ++ [buf] := by simp [own']
  have hhand : own' .hand = w.held.erase buf := by simp [own']
  have hchain : ∀ k, own' (.chain k) = own (.chain k) := fun k => by simp [own']
  refine ⟨own', ⟨by rw [hfree]; exact hf.pool, fun k hk => ?_, fun k hk => ?_, hhand, h.once.erase buf, ?_, ?_⟩, hu⟩
  · rw [hchain]
    exact queue_kept h hu (by simp [ChainOp.chain?]) hk
  · rw [hchain]
    exact h.gone k hk
  · intro x hx
    obtain ⟨c, hc⟩ := h.live x (List.mem_of_mem_erase hx)
    exact hf.live x c hc
  · refine h.apart.move .free (fun c hc => ?_) fun x hx => ?_
    · cases c with
      | chain k => rw [hchain]; exact fun _ h => h
      | free => exact absurd rfl hc
      | hand => rw [hhand, h.hand]; exact List.erase_subset
    · rw [hfree] at hx
      rcases List.mem_append.1 hx with hx | hx
      · exact .inl hx
      · right
        rw [List.mem_singleton.1 hx]
        intro c hc
        cases c with
        | chain k => rw [hchain]; exact h.apart .hand _ (by simp) buf hbuf
        | free => exact absurd rfl hc
        | hand => rw [hhand]; exact fun hmem => (h.once.mem_erase_iff.1 hmem).1 rfl

theorem write_step {w w' : World} {own : Place → List Ptr} {k n : Nat} {data : Bytes} {r : Status} (h : Owned w own)
    (hk : w.stale k = false) (hst : chainStep junk w (.write k data n) = some (r, w')) :
    ∃ own', Owned w' own' ∧ Untouched (.write k data n) w w' own := by
  simp only [chainStep, Option.bind_eq_bind, Option.bind_eq_some_iff] at hst
  obtain ⟨⟨r', s', chain'⟩, hw, hst⟩ := hst
  cases hst
  obtain ⟨new, free', hc, hg⟩ := nr_p_buf_write_to_chain_grown junk (h.chain_ctx hk) hw
  have hnew : ∀ x ∈ new, ∀ a, a ≠ Place.free → x ∉ own a := by
    intro x hx a ha hxa
    rcases hg.origin x hx with hfree | hbrk
    · exact h.apart .free a ha.symm x hfree hxa
    · exact absurd (h.lt hxa) (Nat.not_lt.2 hbrk)
  -- what another place owns is neither new nor the last buffer of the chain
  have hother : ∀ a, a ≠ Place.chain k → a ≠ Place.free → ∀ x ∈ own a, s'.heap x = w.s.heap x := by
    intro a hak haf x hx
    refine hg.frame x (fun hxn => hnew x hxn a haf hx) fun hlast => ?_
    exact h.apart (.chain k) a hak.symm x (List.mem_of_getLast? hlast) hx
  have hu : Untouched (.write k data n) w { w with s := s', chain := Function.update w.chain k chain' } own := by
    intro j hj
    have hjk : j ≠ k := by
      rintro rfl
      exact hj rfl
    exact ⟨Function.update_of_ne hjk _ _, rfl, hother _ (by simpa using hjk) (by simp)⟩
  let own' := Function.update (Function.update own .free free') (.chain k) (own (.chain k) ++ new)
  have hfree : own' .free = free' := by simp [own']
  have hhand : own' .hand = own .hand := by simp [own']
  have hthis : own' (.chain k) = own (.chain k) ++ new := by simp [own']
  have hchain : ∀ j, j ≠ k → own' (.chain j) = own (.chain j) := fun j hj => by simp [own', hj]
  refine ⟨own', ⟨by rw [hfree]; exact hc.pool, fun j hj => ?_, fun j hj => ?_, hhand.trans h.hand, h.once, ?_, ?_⟩, hu⟩
  · by_cases hjk : j = k
    · subst hjk
      rw [hthis]
      show IsQueue s'.heap (Function.update w.chain j chain' j) _
      rw [Function.update_self]
      exact hc.queue
    · rw [hchain j hjk]
      exact queue_kept h hu (fun hkj => hjk (Option.some.inj hkj).symm) hj
  · have hjk : j ≠ k := by
      rintro rfl
      rw [hk] at hj
      cases hj
    rw [hchain j hjk]
    exact h.gone j hj
  · intro x hx
    obtain ⟨b, hb⟩ := h.live x hx
    exact ⟨b, by rw [← hb]; exact hother .hand (by simp) (by simp) x (by rwa [h.hand])⟩
  · refine h.apart.move (.chain k) (fun c hck => ?_) fun x hx => ?_
    · cases c with
      | chain j => rw [hchain j (by simpa using hck)]; exact fun _ h => h
      | free => rw [hfree]; exact hg.suffix.subset
      | hand => rw [hhand]; exact fun _ h => h
    · rw [hthis] at hx
      rcases List.mem_append.1 hx with hx | hx
      · exact .inl hx
      · right
        intro c hck
        cases c with
        | chain j => rw [hchain j (by simpa using hck)]; exact hnew x hx _ (by simp)
        | free => rw [hfree]; exact fun hxf => hc.apart x hxf (by simp [hx])
        | hand => rw [hhand]; exact hnew x hx _ (by simp)

theorem free_chain_step {w w' : World} {own : Place → List Ptr} {k : Nat} {r : Status} (h : Owned w own)
    (hk : w.stale k = false) (hst : chainStep junk w (.free_chain k) = some (r, w')) :
    ∃ own', Owned w' own' ∧ Untouched (.free_chain k) w w' own := by
  obtain ⟨s', hfr, hf⟩ := nr_p_buf_free_chain_spec h.pool (h.queue k hk) (h.apart (.chain k) .free (by simp))
  simp only [chainStep, hfr, Option.bind_eq_bind, Option.bind_some] at hst
  cases hst
  have hother : ∀ a, a ≠ Place.chain k → a ≠ Place.free → ∀ x ∈ own a, s'.heap x = w.s.heap x := by
    intro a hak haf x hx
    refine hf.frame x (fun hxk => h.apart (.chain k) a hak.symm x hxk hx) fun hlast => ?_
    exact h.apart .free a haf.symm x (List.mem_of_getLast? hlast) hx
  have hu : Untouched (.free_chain k) w { w with s := s', stale := Function.update w.stale k true } own := by
    intro j hj
    have hjk : j ≠ k := by
      rintro rfl
      exact hj rfl
    exact ⟨rfl, Function.update_of_ne hjk _ _, hother _ (by simpa using hjk) (by simp)⟩
  let own' := Function.update (Function.update own (.chain k) []) .free (own .free ++ own (.chain k))
  have hfree : own' .free = own .free ++ own (.chain k) := by simp [own']
  have hhand : own' .hand = own .hand := by simp [own']
  have hthis : own' (.chain k) = [] := by simp [own']
  have hchain : ∀ j, j ≠ k → own' (.chain j) = own (.chain j) := fun j hj => by simp [own', hj]
  have hstale : ∀ j, j ≠ k → Function.update w.stale k true j = w.stale j := fun j hj => Function.update_of_ne hj _ _
  refine ⟨own', ⟨by rw [hfree]; exact hf.pool, fun j hj => ?_, fun j hj => ?_, hhand.trans h.hand, h.once, ?_, ?_⟩, hu⟩
  · have hjk : j ≠ k := by
      rintro rfl
      have hself : Function.update w.stale j true j = true := Function.update_self ..
      rw [show Function.update w.stale j true j = false from hj] at hself
      cases hself
    rw [hchain j hjk]
    exact queue_kept h hu (fun hkj => hjk (Option.some.inj hkj).symm) hj
  · by_cases hjk : j = k
    · rw [hjk, hthis]
    · rw [hchain j hjk]
      exact h.gone j (by rw [← hstale j hjk]; exact hj)
  · intro x hx
    obtain ⟨b, hb⟩ := h.live x hx
    exact hf.live x b hb
  · refine h.apart.move .free (fun c hcf => ?_) fun x hx => ?_
    · cases c with
      | chain j =>
        by_cases hjk : j = k
        · rw [hjk, hthis]
          exact List.nil_subset _
        · rw [hchain j hjk]
          exact fun _ h => h
      | free => exact absurd rfl hcf
      | hand => rw [hhand]; exact fun _ h => h
    · rw [hfree] at hx
      rcases List.mem_append.1 hx with hx | hx
      · exact .inl hx
      · right
        intro c hcf
        cases c with
        | chain j =>
          by_cases hjk : j = k
          · rw [hjk, hthis]
            exact List.not_mem_nil
          · rw [hchain j hjk]
            exact h.apart (.chain k) _ (by simpa using Ne.symm hjk) x hx
        | free => exact absurd rfl hcf
        | hand => rw [hhand]; exact h.apart (.chain k) .hand (by simp) x hx

/-- What was on the chain before is in no place then. -/
theorem init_step {w w' : World} {own : Place → List Ptr} {k : Nat} {r : Status} (h : Owned w own)
    (hst : chainStep junk w (.init k) = some (r, w')) : ∃ own', Owned w' own' ∧ Untouched (.init k) w w' own := by
  cases hst
  have hu : Untouched (.init k) w
      { w with chain := Function.update w.chain k Head.empty, stale := Function.update w.stale k false } own := by
    intro j hj
    have hjk : j ≠ k := by
      rintro rfl
      exact hj rfl
    exact ⟨Function.update_of_ne hjk _ _, Function.update_of_ne hjk _ _, fun _ _ => rfl⟩
  let own' := Function.update own (.chain k) []
  have hthis : own' (.chain k) = [] := by simp [own']
  have hother : ∀ a, a ≠ Place.chain k → own' a = own a := fun a ha => Function.update_of_ne ha _ _
  refine ⟨own', ⟨by rw [hother _ (by simp)]; exact h.pool, fun j hj => ?_, fun j hj => ?_, ?_, h.once, h.live, ?_⟩, hu⟩
  · by_cases hjk : j = k
    · subst hjk
      rw [hthis]
      show IsQueue w.s.heap (Function.update w.chain j Head.empty j) []
      rw [Function.update_self]
      exact isQueue_empty _
    · rw [hother _ (by simpa using hjk)]
      exact queue_kept h hu (fun hkj => hjk (Option.some.inj hkj).symm) hj
  · by_cases hjk : j = k
    · rw [hjk, hthis]
    · rw [hother _ (by simpa using hjk)]
      exact h.gone j (by rw [← hj]; exact (Function.update_of_ne hjk _ _).symm)
  · rw [hother _ (by simp)]
    exact h.hand
  · refine h.apart.move (.chain k) (fun c hc => by rw [hother c hc]; exact fun _ h => h) fun x hx => ?_
    rw [hthis] at hx
    cases hx

theorem Owned.step {w w' : World} {own : Place → List Ptr} {op : ChainOp} {r : Status} (h : Owned w own)
    (hok : op.Allowed w) (hst : chainStep junk w op = some (r, w')) : ∃ own', Owned w' own' ∧ Untouched op w w' own := by
  cases op with
  | alloc => exact alloc_step junk h hst
  | free buf => exact free_step junk h hok hst
  | write k data n => exact write_step junk h hok hst
  | free_chain k => exact free_chain_step junk h hok hst
  | init k => exact init_step junk h hst

/-! ## Every run -/

/-- The chains and the free list are queues of their own, callers hold each
buffer once, and no buffer is in two places. -/
def World.Separate (w : World) : Prop :=
  (∀ k, w.stale k = false → ∃ l, IsQueue w.s.heap (w.chain k) l) ∧ (∃ l, IsQueue w.s.heap w.s.ctx.free_list l) ∧
    w.held.Nodup ∧ ∀ p a b, w.At p a → w.At p b → a = b

/-- The chain `k` links the buffers it did, and they are as they were. -/
def SameChain (w w' : World) (k : Nat) : Prop :=
  w'.stale k = w.stale k ∧ w'.chain k = w.chain k ∧
    ∀ l, IsQueue w.s.heap (w.chain k) l → IsQueue w'.s.heap (w'.chain k) l ∧ ∀ p ∈ l, w'.s.heap p = w.s.heap p

theorem Owned.separate {w : World} {own : Place → List Ptr} (h : Owned w own) : w.Separate := by
  refine ⟨fun k hk => ⟨_, h.queue k hk⟩, ⟨_, h.pool.queue⟩, h.once, fun p a b ha hb => ?_⟩
  by_contra hab
  exact h.apart a b hab p (h.of_at ha) (h.of_at hb)

/-- Whatever the order of the calls, no buffer is in two places, and a call
leaves the chains it is not about as they are. -/
theorem chains_separate (size : Int32) {evs : List (ChainOp × Status)} {w : World}
    (hrun : Run (chainStep junk) (fun w op => op.Allowed w) (World.create size) evs w) :
    w.Separate ∧ ∀ op r w', op.Allowed w → chainStep junk w op = some (r, w') →
      ∀ k, w.stale k = false → op.chain? ≠ some k → SameChain w w' k := by
  obtain ⟨own, h⟩ := hrun.inv (fun w => ∃ own, Owned w own) ⟨_, Owned.create size⟩ (by
    rintro w op r w' ⟨own, h⟩ hok hst
    obtain ⟨own', h', -⟩ := h.step junk hok hst
    exact ⟨own', h'⟩)
  refine ⟨h.separate, fun op r w' hok hst k hk hop => ?_⟩
  obtain ⟨own', -, hu⟩ := h.step junk hok hst
  obtain ⟨hchain, hstale, hheap⟩ := hu k hop
  refine ⟨hstale, hchain, fun l hl => ?_⟩
  have hown : own (.chain k) = l := (h.queue k hk).links.unique hl.links
  rw [hown] at hheap
  exact ⟨by rw [hchain]; exact hl.frame fun p hp => by rw [hheap p hp], hheap⟩

/-- Two chains, one of which is freed while the other takes a buffer that it
had. -/
theorem recycled_separate : ∃ w, Run (chainStep fun _ _ => 0) (fun w op => op.Allowed w) (World.create 2)
      [(.alloc, .ok), (.write 0 [1, 2, 3] 2, .ok), (.free_chain 0, .ok), (.write 1 [4] 1, .ok), (.init 0, .ok),
        (.free 0, .ok)] w ∧ w.Separate := by
  have h0 : Run (chainStep fun _ _ => 0) (fun w op => op.Allowed w) (World.create 2) [] (World.create 2) := .nil
  have h1 := h0.snoc (i := ChainOp.alloc) trivial rfl
  have h2 := h1.snoc (i := ChainOp.write 0 [1, 2, 3] 2) rfl rfl
  have h3 := h2.snoc (i := ChainOp.free_chain 0) rfl rfl
  have h4 := h3.snoc (i := ChainOp.write 1 [4] 1) rfl rfl
  have h5 := h4.snoc (i := ChainOp.init 0) trivial rfl
  have h6 := h5.snoc (i := ChainOp.free 0) (List.mem_singleton_self 0) rfl
  exact ⟨_, h6, (chains_separate _ 2 h6).1⟩

end Nrappkit.Util
