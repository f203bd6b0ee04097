import Nrappkit.Event.Records
import Nrappkit.Event.LoopSpec
import Mathlib.Data.List.Pairwise
/-!
# The batch and the slots

`loopsOf` is what the service `Loops` sees of a state: the batch is what the
walk has still to visit, without the records that have lost their callback.
Every step of the machine is a step of the service, or leaves what it sees
unchanged.
-/
open Lib

namespace Nrappkit.Event

/-- Where a record of the batch comes from. -/
def originOf (c : callback) : Origin := if c.how < 0 then none else some (c.resource.toNat, c.how.toNat)

/-- The records the walk has not called. -/
def Loop.uncalled (l : Loop) : List Ptr :=
  match l.frame with
  | .call _ _ => l.w_q.tail
  | _ => l.w_q

/-- The batch that a list of records stands for. -/
def itemsOf (recs : Ptr → callback) (l : List Ptr) : List (Use × Origin) :=
  (l.filter fun p => (recs p).cb ≠ 0).map fun p => ((recs p).use, originOf (recs p))

def loopsOf (s : Async) : Loops where
  slots i j := (s.loop.socket_vec i j).map fun p => (s.pool.recs p).use
  queue := s.loop.q_head.map fun p => (s.pool.recs p).use
  batch := itemsOf s.pool.recs s.loop.uncalled
  running := s.loop.frame ≠ .idle
  serial := s.pool.serial
  log := s.log

/-- A record names the slot it was registered on, or none. -/
def Named (c : callback) : Prop := c.how = -1 ∨ ∃ i j : Nat, c.resource = i ∧ c.how = j

structure LoopRel (l : Loop) (recs : Ptr → callback) : Prop where
  slot : ∀ i j p, l.socket_vec i j = some p →
    (recs p).resource = i ∧ (recs p).how = j ∧ i < SOCKET_VEC_SIZE ∧ j < ASYNC_WAIT_TYPES
  queue : ∀ p ∈ l.q_head, (recs p).how = -1
  named : ∀ p ∈ l.w_q, Named (recs p)
  /-- A batch has one record for a slot. -/
  apart : l.w_q.Pairwise fun p q => originOf (recs p) = originOf (recs q) → originOf (recs p) = none

structure LoopGood (s : Async) : Prop where
  rel : LoopRel s.loop s.pool.recs
  inv : (loopsOf s).Inv

theorem originOf_none {c : callback} (h : c.how = -1) : originOf c = none := by
  simp [originOf, h]

theorem originOf_some {c : callback} {i j : Nat} (hr : c.resource = i) (hh : c.how = j) :
    originOf c = some (i, j) := by
  rw [originOf, if_neg (by omega), hr, hh, Int.toNat_natCast, Int.toNat_natCast]

theorem Named.origin {c : callback} (h : Named c) {i j : Nat} :
    originOf c = some (i, j) ↔ c.resource = i ∧ c.how = j := by
  rcases h with h | ⟨i', j', hr, hh⟩
  · rw [originOf_none h]
    constructor
    · intro heq
      cases heq
    · intro heq
      omega
  · rw [originOf_some hr hh, hr, hh, Option.some.injEq, Prod.mk.injEq]
    omega

theorem itemsOf_congr {recs recs' : Ptr → callback} {l : List Ptr} (h : ∀ p ∈ l, recs' p = recs p) :
    itemsOf recs' l = itemsOf recs l := by
  unfold itemsOf
  have hfil : (l.filter fun p => (recs' p).cb ≠ 0) = l.filter fun p => (recs p).cb ≠ 0 := by
    apply List.filter_congr
    intro p hp
    rw [h p hp]
  rw [hfil]
  apply List.map_congr_left
  intro p hp
  rw [h p (List.mem_filter.1 hp).1]

theorem uncalled_subset (l : Loop) : ∀ p ∈ l.uncalled, p ∈ l.w_q := by
  intro p hp
  unfold Loop.uncalled at hp
  split at hp
  · exact List.mem_of_mem_tail hp
  · exact hp

section
variable {s s' : Async}

/-- The record is in a slot, queued or in the batch. -/
def InLoop (s : Async) (p : Ptr) : Prop :=
  (∃ i j, s.loop.socket_vec i j = some p) ∨ p ∈ s.loop.q_head ∨ p ∈ s.loop.w_q

/-- A state stands for a service with the same parts. -/
theorem Loops.Inv.of_eq {a : Loops} (ha : a.Inv) (hs : ∀ i j, (loopsOf s).slots i j = a.slots i j)
    (hq : (loopsOf s).queue = a.queue) (hb : (loopsOf s).batch = a.batch)
    (hr : decide (s.loop.frame ≠ .idle) = a.running) (hser : s.pool.serial = a.serial) (hlog : s.log = a.log) :
    (loopsOf s).Inv := by
  have hs' : (loopsOf s).slots = a.slots := by
    funext i j
    exact hs i j
  have heq : loopsOf s = a := by
    cases a
    simp only [loopsOf, Loops.mk.injEq] at *
    exact ⟨hs', hq, hb, hr, hser, hlog⟩
  rw [heq]
  exact ha

theorem LoopRel.congr {l : Loop} {recs recs' : Ptr → callback} (h : LoopRel l recs)
    (hs : ∀ i j p, l.socket_vec i j = some p → recs' p = recs p) (hq : ∀ p ∈ l.q_head, recs' p = recs p)
    (hw : ∀ p ∈ l.w_q, recs' p = recs p) : LoopRel l recs' := by
  refine ⟨fun i j p hp => ?_, fun p hp => ?_, fun p hp => ?_, ?_⟩
  · rw [hs i j p hp]
    exact h.slot i j p hp
  · rw [hq p hp]
    exact h.queue p hp
  · rw [hw p hp]
    exact h.named p hp
  · refine h.apart.imp_of_mem fun {p q} hp hq' hpq => ?_
    rw [hw p hp, hw q hq']
    exact hpq

/-- A step that is not about the event loop. -/
theorem LoopGood.frame (h : LoopGood s) (hl : s'.loop = s.loop) (hr : ∀ p, InLoop s p → s'.pool.recs p = s.pool.recs p)
    (hs : s.pool.serial ≤ s'.pool.serial)
    (hlog : s'.log = s.log ∧ s'.pool.serial = s.pool.serial ∨ ∃ e, e.isTimer = true ∧ s'.log = s.log ++ [e]) :
    LoopGood s' := by
  have hslots : ∀ i j, (loopsOf s').slots i j = (loopsOf s).slots i j := by
    intro i j
    simp only [loopsOf, hl]
    cases hp : s.loop.socket_vec i j with
    | none => rfl
    | some p =>
      simp only [Option.map_some]
      rw [hr p (.inl ⟨i, j, hp⟩)]
  have hqueue : (loopsOf s').queue = (loopsOf s).queue := by
    simp only [loopsOf, hl]
    apply List.map_congr_left
    intro p hp
    rw [hr p (.inr (.inl hp))]
  have hbatch : (loopsOf s').batch = (loopsOf s).batch := by
    simp only [loopsOf, hl]
    exact itemsOf_congr fun p hp => hr p (.inr (.inr (uncalled_subset _ p hp)))
  refine ⟨?_, ?_⟩
  · rw [hl]
    exact h.rel.congr (fun i j p hp => hr p (.inl ⟨i, j, hp⟩)) (fun p hp => hr p (.inr (.inl hp)))
      fun p hp => hr p (.inr (.inr hp))
  · rcases hlog with ⟨hlog, hser⟩ | ⟨e, he, hlog⟩
    · exact h.inv.of_eq hslots hqueue hbatch (by rw [hl]; rfl) hser hlog
    · exact (h.inv.step (.other he hs)).of_eq hslots hqueue hbatch (by rw [hl]; rfl) rfl hlog

/-! ## Timers -/

theorem Owned.inLoop_ne (h : Owned s) {p q : Ptr} (hq : InLoop s q) {P : Place} (hp : Holds s P p)
    (hs : ∀ i j, P ≠ .slot i j) (hqu : P ≠ .queued) (hw : P ≠ .working) : q ≠ p := by
  rcases hq with ⟨i, j, hq⟩ | hq | hq
  · exact h.apart hp (show Holds s (.slot i j) q from hq) (hs i j)
  · exact h.apart hp (show Holds s .queued q from hq) hqu
  · exact h.apart hp (show Holds s .working q from hq) hw

/-- A new record leaves those of the event loop as they were. -/
theorem Owned.created_loop (h : Owned s) {cb arg : UInt64} {how resource : Int} {p : Ptr} {pool' : Pool}
    (hc : s.pool.Creates cb arg how resource p pool') {q : Ptr} (hq : InLoop s q) : q ≠ p := by
  rcases hc.was with hp | hp
  · exact h.inLoop_ne hq (show Holds s .free p from hp) (by simp) (by simp) (by simp)
  · exact h.inLoop_ne hq (show Holds s .fresh p from hp) (by simp) (by simp) (by simp)

theorem timer_set_loop (ho : Sound s) (h : LoopGood s) {delay_ms : Int} {cb cb_arg : UInt64} {r : Status}
    (hst : NR_async_timer_set s delay_ms cb cb_arg = some (r, s')) : LoopGood s' := by
  obtain ⟨due, p, pool', -, hc, rfl⟩ := timer_set_cases hst
  refine h.frame rfl (fun q hq => ?_) ?_ (.inr ⟨_, rfl, rfl⟩)
  · have hne := ho.owned.created_loop hc hq
    simp [Pool.write, hc.recs, hne]
  · simp [Pool.write, hc.serial]

/-- A record of the wheel is marked. -/
theorem mark_loop (ho : Sound s) {i : Nat} {p : Ptr} (hp : p ∈ s.wheel.callwheel i) {q : Ptr} (hq : InLoop s q) :
    (s.pool.write p fun c => { c with cb := 0 }).recs q = s.pool.recs q := by
  have hne := ho.owned.inLoop_ne hq (show Holds s (.wheel i) p from hp) (by simp) (by simp) (by simp)
  simp [Pool.write, hne]

theorem timer_cancel_loop (ho : Sound s) (h : LoopGood s) {p : Ptr} {r : Status}
    (hp : s.liveHandle p = true ∨ s.runningHandle p = true)
    (hst : NR_async_timer_cancel s p = some (r, s')) : LoopGood s' := by
  rcases timer_cancel_cases ho hp hst with rfl | ⟨i, -, hmem, ⟨-, rfl⟩ | ⟨-, rfl⟩⟩
  · exact h
  · exact h.frame rfl (fun q hq => mark_loop ho hmem hq) (Nat.le_refl _) (.inr ⟨_, rfl, rfl⟩)
  · exact h.frame rfl (fun q hq => rfl) (Nat.le_refl _) (.inr ⟨_, rfl, rfl⟩)

theorem update_time_loop (h : LoopGood s) {tv : timeval} {r : Status}
    (hst : NR_async_timer_update_time s tv = (r, s')) : LoopGood s' := by
  rcases update_time_cases hst with rfl | rfl | ⟨c, -, ⟨-, rfl⟩ | ⟨-, rfl⟩⟩
  · exact h.frame rfl (fun _ _ => rfl) (Nat.le_refl _) (.inl ⟨rfl, rfl⟩)
  · exact h
  · have h₁ : LoopGood { s with log := s.log ++ [.updating c] } :=
      h.frame rfl (fun _ _ => rfl) (Nat.le_refl _) (.inr ⟨.updating c, rfl, rfl⟩)
    refine h₁.frame rfl (fun _ _ => rfl) (Nat.le_refl _) (.inr ⟨.updated, rfl, ?_⟩)
    simp
  · exact h.frame rfl (fun _ _ => rfl) (Nat.le_refl _) (.inr ⟨.updating c, rfl, rfl⟩)

theorem timer_step_loop (ho : Sound s) (h : LoopGood s) {r : Status} (hst : timer_step s = some (r, s')) :
    LoopGood s' := by
  obtain ⟨hl, -, hser, ⟨hr, hlog⟩ | ⟨o, p, hf, hlog, hr⟩⟩ := timer_step_cases hst
  · refine h.frame hl (fun q _ => by rw [hr]) (Nat.le_of_eq hser.symm) ?_
    rcases hlog with hlog | hlog
    · exact .inl ⟨hlog, hser⟩
    · exact .inr ⟨.updated, rfl, hlog⟩
  · refine h.frame hl (fun q hq => ?_) (Nat.le_of_eq hser.symm) (.inr ⟨_, rfl, hlog⟩)
    rw [hr]
    exact mark_loop ho (ho.walk_mem hf) hq

/-! ## Slots and the queue -/

theorem clearSlot_slot (s : Async) (i j i' j' : Nat) :
    (clearSlot s i j).loop.socket_vec i' j' = if i' = i ∧ j' = j then none else s.loop.socket_vec i' j' := by
  unfold clearSlot
  split
  · rename_i hnone
    split
    · rename_i heq
      rw [heq.1, heq.2]
      exact hnone
    · rfl
  · exact setSlot_eq ..

theorem wait_loop (ho : Sound s) (h : LoopGood s) {sock how : Int} {cb cb_arg : UInt64} {r : Status}
    (hst : NR_async_wait s sock how cb cb_arg = some (r, s')) : LoopGood s' := by
  rcases wait_cases hst with rfl | ⟨i, j, p, pool', hi, hj, hin, hjn, hc, rfl⟩
  · exact h
  clear hst
  obtain ⟨hw, hrecs, hserial, hlog, hq, hwq, hn1, hf⟩ := clearSlot_frame s i j
  have ho₁ := clearSlot_owned ho.owned i j
  have hslot := clearSlot_slot s i j
  generalize clearSlot s i j = s₁ at *
  -- the new record, and those that stay
  have hself : pool'.recs p = s₁.pool.fill p cb cb_arg how sock := by rw [hc.recs, Function.update_self]
  have hkeep : ∀ q, InLoop s₁ q → pool'.recs q = s.pool.recs q := by
    intro q hq
    rw [hc.recs, Function.update_of_ne (ho₁.created_loop hc hq), hrecs]
  have hvec : ∀ i' j', (s₁.loop.setSlot i j (some p)).socket_vec i' j' =
      if i' = i ∧ j' = j then some p else s.loop.socket_vec i' j' := by
    intro i' j'
    rw [setSlot_eq, hslot]
    split
    · rfl
    · rfl
  have hvkeep : ∀ i' j' q, ¬ (i' = i ∧ j' = j) → s.loop.socket_vec i' j' = some q → pool'.recs q = s.pool.recs q := by
    intro i' j' q hne hq
    refine hkeep q (.inl ⟨i', j', ?_⟩)
    rw [hslot, if_neg hne]
    exact hq
  refine ⟨⟨fun i' j' q hq' => ?_, fun q hq' => ?_, fun q hq' => ?_, ?_⟩, ?_⟩
  · dsimp only at hq'
    rw [hvec] at hq'
    split at hq'
    · rename_i heq
      cases hq'
      obtain ⟨rfl, rfl⟩ := heq
      rw [hself]
      exact ⟨hi, hj, hin, hjn⟩
    · rename_i hne
      dsimp only
      rw [hvkeep i' j' q hne hq']
      exact h.rel.slot i' j' q hq'
  · dsimp only
    rw [hkeep q (.inr (.inl hq'))]
    exact h.rel.queue q (hq ▸ hq')
  · dsimp only
    rw [hkeep q (.inr (.inr hq'))]
    exact h.rel.named q (hwq ▸ hq')
  · have hap := h.rel.apart
    rw [← hwq] at hap
    refine hap.imp_of_mem fun {q q'} hq₁ hq₂ hqq => ?_
    dsimp only
    rw [hkeep q (.inr (.inr hq₁)), hkeep q' (.inr (.inr hq₂))]
    exact hqq
  · have hx : (pool'.recs p).use.serial = s.pool.serial := by
      rw [hself, ← hserial]
      rfl
    have hlt : (pool'.recs p).use.serial < pool'.serial := by
      rw [hx, hc.serial, hserial]
      exact Nat.lt_succ_self _
    refine (h.inv.step (.register (i := i) (j := j) (Nat.le_of_eq hx.symm) hlt)).of_eq (fun i' j' => ?_) ?_ ?_ ?_ rfl ?_
    · show Option.map _ ((s₁.loop.setSlot i j (some p)).socket_vec i' j') = Loops.setSlot _ i j _ i' j'
      rw [hvec, Loops.setSlot]
      split
      · rfl
      · rename_i hne
        cases hq' : s.loop.socket_vec i' j' with
        | none => simp [loopsOf, hq']
        | some q => simp [loopsOf, hq', hvkeep i' j' q hne hq']
    · show s₁.loop.q_head.map _ = s.loop.q_head.map _
      rw [← hq]
      apply List.map_congr_left
      intro q hq'
      rw [hkeep q (.inr (.inl hq'))]
    · show itemsOf pool'.recs (s₁.loop.setSlot i j (some p)).uncalled = itemsOf s.pool.recs s.loop.uncalled
      have hun : (s₁.loop.setSlot i j (some p)).uncalled = s.loop.uncalled := by
        simp only [Loop.uncalled, Loop.setSlot, hf, hwq]
      rw [hun]
      refine itemsOf_congr fun q hq' => hkeep q (.inr (.inr ?_))
      rw [hwq]
      exact uncalled_subset _ q hq'
    · show decide (s₁.loop.frame ≠ .idle) = _
      rw [hf]
      rfl
    · show s₁.log ++ _ = s.log ++ _
      rw [hlog]

theorem schedule_loop (ho : Sound s) (h : LoopGood s) {cb cb_arg : UInt64} {r : Status}
    (hst : NR_async_schedule s cb cb_arg = some (r, s')) : LoopGood s' := by
  obtain ⟨p, pool', hc, rfl⟩ := schedule_cases hst
  have hself : pool'.recs p = s.pool.fill p cb cb_arg (-1) (-1) := by rw [hc.recs, Function.update_self]
  have hkeep : ∀ q, InLoop s q → pool'.recs q = s.pool.recs q := by
    intro q hq
    rw [hc.recs, Function.update_of_ne (ho.owned.created_loop hc hq)]
  have hrel := h.rel.congr (fun i j q hq => hkeep q (.inl ⟨i, j, hq⟩)) (fun q hq => hkeep q (.inr (.inl hq)))
    fun q hq => hkeep q (.inr (.inr hq))
  refine ⟨⟨hrel.slot, fun q hq => ?_, hrel.named, hrel.apart⟩, ?_⟩
  · rcases List.mem_append.1 hq with hq | hq
    · exact hrel.queue q hq
    · rw [List.mem_singleton.1 hq]
      dsimp only
      rw [hself]
      rfl
  · have hx : (pool'.recs p).use.serial = s.pool.serial := by
      rw [hself]
      rfl
    have hlt : (pool'.recs p).use.serial < pool'.serial := by
      rw [hx, hc.serial]
      exact Nat.lt_succ_self _
    refine (h.inv.step (.schedule (Nat.le_of_eq hx.symm) hlt)).of_eq (fun i j => ?_) ?_ ?_ rfl rfl rfl
    · cases hq : s.loop.socket_vec i j with
      | none => simp [loopsOf, hq]
      | some q => simp [loopsOf, hq, hkeep q (.inl ⟨i, j, hq⟩)]
    · show (s.loop.q_head ++ [p]).map _ = s.loop.q_head.map _ ++ [_]
      rw [List.map_append, List.map_singleton]
      congr 1
      apply List.map_congr_left
      intro q hq
      rw [hkeep q (.inr (.inl hq))]
    · exact itemsOf_congr fun q hq => hkeep q (.inr (.inr (uncalled_subset _ q hq)))

/-! ## Cancelling -/

/-- The batch loses the record of the slot. -/
theorem itemsOf_cancel {recs : Ptr → callback} {l : List Ptr} {c : Ptr} {i j : Nat} (hc : c ∈ l)
    (ho : originOf (recs c) = some (i, j))
    (hap : l.Pairwise fun p q => originOf (recs p) = originOf (recs q) → originOf (recs p) = none) :
    itemsOf (Function.update recs c { recs c with cb := 0 }) l =
      (itemsOf recs l).filter fun b => b.2 ≠ some (i, j) := by
  have honly : ∀ p ∈ l, originOf (recs p) = some (i, j) → p = c := by
    intro p hp hop
    by_contra hne
    have hsymm : Std.Symm fun p q => originOf (recs p) = originOf (recs q) → originOf (recs p) = none :=
      ⟨fun p q hpq heq => heq.trans (hpq heq.symm)⟩
    have hnone := hap.forall hp hc hne (hop.trans ho.symm)
    rw [hop] at hnone
    cases hnone
  have hother : ∀ p ≠ c, Function.update recs c { recs c with cb := 0 } p = recs p :=
    fun p hp => Function.update_of_ne hp ..
  unfold itemsOf
  rw [List.filter_map, List.filter_filter]
  have hfil : (l.filter fun p => (Function.update recs c { recs c with cb := 0 } p).cb ≠ 0) = l.filter fun p =>
      ((fun b : Use × Origin => decide (b.2 ≠ some (i, j))) ∘ fun p => ((recs p).use, originOf (recs p))) p &&
        decide ((recs p).cb ≠ 0) := by
    apply List.filter_congr
    intro p hp
    by_cases hpc : p = c
    · subst hpc
      simp [ho]
    · have hne : originOf (recs p) ≠ some (i, j) := fun hop => hpc (honly p hp hop)
      simp [hother p hpc, hne]
  rw [hfil]
  apply List.map_congr_left
  intro p hp
  have hpc : p ≠ c := by
    rintro rfl
    simp [ho] at hp
  rw [hother p hpc]

/-- Nothing in the batch is for the slot. -/
theorem itemsOf_no_cancel {recs : Ptr → callback} {l : List Ptr} {i j : Nat}
    (h : ∀ p ∈ l, originOf (recs p) ≠ some (i, j)) :
    itemsOf recs l = (itemsOf recs l).filter fun b => b.2 ≠ some (i, j) := by
  symm
  refine List.filter_eq_self.2 fun b hb => ?_
  obtain ⟨p, hp, rfl⟩ := List.mem_map.1 hb
  exact decide_eq_true (h p (List.mem_filter.1 hp).1)

/-- While client code runs, `NR_async_cancel` searches what the walk has still
to visit. -/
theorem queuedFor_eq (hl : LoopOk s.loop) (hcl : s.loop.frame.inClient = true) (sock how : Int) :
    queuedFor s sock how =
      s.loop.uncalled.find? fun c => (s.pool.recs c).resource = sock ∧ (s.pool.recs c).how = how := by
  unfold queuedFor Loop.uncalled
  unfold LoopOk at hl
  cases hf : s.loop.frame with
  | idle =>
    rw [hf] at hl
    rw [hl.1, hl.2]
    rfl
  | head events => simp [hf, LoopFrame.inClient] at hcl
  | call events n2 =>
    rw [hf] at hl
    obtain ⟨n1, rest, hw, hn, -⟩ := hl
    simp [hw, hn, after]

/-- What `NR_async_cancel` leaves: the slot is empty, and the batch has lost the
record of the slot. -/
theorem cancelled_loop (h : LoopGood s) {i j : Nat} (hl : s'.loop = (clearSlot s i j).loop)
    (hser : s'.pool.serial = s.pool.serial) (hlog : s'.log = s.log ++ [.cancelled i j])
    (hbody : ∀ p, (s'.pool.recs p).how = (s.pool.recs p).how ∧ (s'.pool.recs p).resource = (s.pool.recs p).resource)
    (hslots : ∀ i' j' p, s.loop.socket_vec i' j' = some p → s'.pool.recs p = s.pool.recs p)
    (hqueue : ∀ p ∈ s.loop.q_head, s'.pool.recs p = s.pool.recs p)
    (hbatch : itemsOf s'.pool.recs s.loop.uncalled =
      (itemsOf s.pool.recs s.loop.uncalled).filter fun b => b.2 ≠ some (i, j)) : LoopGood s' := by
  obtain ⟨-, -, -, -, hq, hwq, -, hf⟩ := clearSlot_frame s i j
  have hslot := clearSlot_slot s i j
  have horigin : ∀ p, originOf (s'.pool.recs p) = originOf (s.pool.recs p) := by
    intro p
    rw [originOf, originOf, (hbody p).1, (hbody p).2]
  rw [← hl] at hq hwq hf hslot
  refine ⟨⟨fun i' j' p hp => ?_, fun p hp => ?_, fun p hp => ?_, ?_⟩, ?_⟩
  · rw [hslot] at hp
    split at hp
    · cases hp
    · rw [hslots i' j' p hp]
      exact h.rel.slot i' j' p hp
  · rw [hq] at hp
    rw [hqueue p hp]
    exact h.rel.queue p hp
  · rw [hwq] at hp
    have hn := h.rel.named p hp
    unfold Named at *
    rw [(hbody p).1, (hbody p).2]
    exact hn
  · rw [hwq]
    refine h.rel.apart.imp fun {p q} hpq => ?_
    rw [horigin, horigin]
    exact hpq
  · refine (h.inv.step (.cancel (i := i) (j := j))).of_eq (fun i' j' => ?_) ?_ ?_ ?_ hser hlog
    · show Option.map _ (s'.loop.socket_vec i' j') = Loops.setSlot _ i j _ i' j'
      rw [hslot, Loops.setSlot]
      split
      · rfl
      · cases hp : s.loop.socket_vec i' j' with
        | none => simp [loopsOf, hp]
        | some p => simp [loopsOf, hp, hslots i' j' p hp]
    · show s'.loop.q_head.map _ = s.loop.q_head.map _
      rw [hq]
      apply List.map_congr_left
      intro p hp
      rw [hqueue p hp]
    · show itemsOf s'.pool.recs s'.loop.uncalled = _
      have hun : s'.loop.uncalled = s.loop.uncalled := by simp only [Loop.uncalled, hf, hwq]
      rw [hun]
      exact hbatch
    · rw [hf]
      rfl

theorem cancel_loop (ho : Sound s) (h : LoopGood s) {sock how : Int} {r : Status} (hcl : s.inClient = true)
    (hst : NR_async_cancel s sock how = some (r, s')) : LoopGood s' := by
  have hcl' : s.loop.frame.inClient = true := (Bool.and_eq_true_iff.1 hcl).1
  rcases cancel_cases hst with rfl | ⟨i, j, hi, hj, hcases⟩
  · exact h
  obtain ⟨-, hrecs, hserial, hlog, -, hwq, hn1, hf⟩ := clearSlot_frame s i j
  have hfind := queuedFor_eq (s := clearSlot s i j) (ho.loop.congr hf hwq hn1) (by rw [hf]; exact hcl') sock how
  have hun : (clearSlot s i j).loop.uncalled = s.loop.uncalled := by simp only [Loop.uncalled, hf, hwq]
  rw [hun, hrecs] at hfind
  have hnamed : ∀ p ∈ s.loop.uncalled, Named (s.pool.recs p) := fun p hp => h.rel.named p (uncalled_subset _ p hp)
  have hsub : s.loop.uncalled.Sublist s.loop.w_q := by
    unfold Loop.uncalled
    split
    · exact List.tail_sublist _
    · exact List.Sublist.refl _
  rcases hcases with ⟨hnone, rfl⟩ | ⟨c, hsome, rfl⟩
  · refine cancelled_loop h rfl hserial (by rw [hlog]) (fun p => by rw [hrecs]; exact ⟨rfl, rfl⟩)
      (fun _ _ p _ => by rw [hrecs]) (fun p _ => by rw [hrecs]) ?_
    dsimp only
    rw [hrecs]
    refine itemsOf_no_cancel fun p hp hop => ?_
    rw [hfind, List.find?_eq_none] at hnone
    refine hnone p hp (decide_eq_true ?_)
    rw [hi, hj]
    exact (hnamed p hp).origin.1 hop
  · rw [hfind] at hsome
    have hc := List.mem_of_find?_eq_some hsome
    have hcw := uncalled_subset _ c hc
    have hoc : originOf (s.pool.recs c) = some (i, j) := by
      have hmatch := List.find?_some hsome
      rw [decide_eq_true_eq, hi, hj] at hmatch
      exact (hnamed c hc).origin.2 hmatch
    have hother : ∀ p ≠ c, Function.update s.pool.recs c { s.pool.recs c with cb := 0 } p = s.pool.recs p :=
      fun p hp => Function.update_of_ne hp ..
    refine cancelled_loop h rfl hserial (by rw [hlog]) (fun p => ?_) (fun i' j' p hp => ?_) (fun p hp => ?_) ?_
    all_goals simp only [Pool.write, hrecs]
    · by_cases hpc : p = c
      · rw [hpc, Function.update_self]
        exact ⟨rfl, rfl⟩
      · rw [hother p hpc]
        exact ⟨rfl, rfl⟩
    · refine hother p ?_
      exact ho.owned.apart (show Holds s .working c from hcw) (show Holds s (.slot i' j') p from hp) (by simp)
    · refine hother p ?_
      exact ho.owned.apart (show Holds s .working c from hcw) (show Holds s .queued p from hp) (by simp)
    · exact itemsOf_cancel hc hoc (h.rel.apart.sublist hsub)

/-! ## A batch starts -/

/-- The slots whose descriptors are set, as far as `collect` has come. -/
def Collected (fd_read fd_write : List Nat) (n i j : Nat) : Prop :=
  i < n ∧ j < ASYNC_WAIT_TYPES ∧ FD_ISSET i j fd_read fd_write = true

instance (fd_read fd_write : List Nat) (n i j : Nat) : Decidable (Collected fd_read fd_write n i j) :=
  inferInstanceAs (Decidable (_ ∧ _ ∧ _))

theorem enqueue_slot (fd_read fd_write : List Nat) (i j : Nat) (l : Loop) (i' j' : Nat) :
    (enqueue fd_read fd_write i j l).socket_vec i' j' =
      if (i' = i ∧ j' = j) ∧ FD_ISSET i j fd_read fd_write = true then none else l.socket_vec i' j' := by
  unfold enqueue
  split
  · rename_i hnone
    split
    · rename_i heq
      rw [heq.1.1, heq.1.2]
      exact hnone
    · rfl
  · split
    · rename_i hset
      show (l.setSlot i j none).socket_vec i' j' = _
      rw [setSlot_eq]
      simp only [hset, and_true]
    · rename_i hset
      rw [if_neg fun hc => hset hc.2]

theorem enqueue_queue (fd_read fd_write : List Nat) (i j : Nat) (l : Loop) :
    (enqueue fd_read fd_write i j l).q_head =
      l.q_head ++ if FD_ISSET i j fd_read fd_write = true then (l.socket_vec i j).toList else [] := by
  unfold enqueue
  split
  · rename_i hnone
    simp [hnone]
  · rename_i c hc
    split
    · simp [hc]
    · simp

/-- What a slot adds to the queue. -/
theorem mem_ready {b : Prop} [Decidable b] {o : Option Ptr} {p : Ptr} :
    p ∈ (if b then o.toList else []) ↔ b ∧ o = some p := by
  split <;> simp [*]

/-- Both directions of one socket. -/
theorem enqueue_both (fd_read fd_write : List Nat) (i : Nat) (l : Loop) :
    (∀ i' j, (enqueue fd_read fd_write i 1 (enqueue fd_read fd_write i 0 l)).socket_vec i' j =
      if i' = i ∧ j < ASYNC_WAIT_TYPES ∧ FD_ISSET i j fd_read fd_write = true then none else l.socket_vec i' j) ∧
    ∃ found, (enqueue fd_read fd_write i 1 (enqueue fd_read fd_write i 0 l)).q_head = l.q_head ++ found ∧
      ∀ p, p ∈ found ↔ ∃ j < ASYNC_WAIT_TYPES, FD_ISSET i j fd_read fd_write = true ∧ l.socket_vec i j = some p := by
  have htwo : ∀ {j}, j < ASYNC_WAIT_TYPES → j = 0 ∨ j = 1 := fun {j} hj => by
    unfold ASYNC_WAIT_TYPES at hj
    omega
  constructor
  · intro i' j
    rw [enqueue_slot, enqueue_slot]
    by_cases hc : i' = i ∧ j < ASYNC_WAIT_TYPES ∧ FD_ISSET i j fd_read fd_write = true
    · obtain ⟨rfl, hj, hset⟩ := hc
      rw [if_pos (show i' = i' ∧ _ from ⟨rfl, hj, hset⟩)]
      rcases htwo hj with rfl | rfl
      · rw [if_pos (show (i' = i' ∧ 0 = 0) ∧ _ from ⟨⟨rfl, rfl⟩, hset⟩)]
        split <;> rfl
      · rw [if_pos ⟨⟨rfl, rfl⟩, hset⟩]
    · rw [if_neg hc, if_neg, if_neg]
      · rintro ⟨⟨rfl, rfl⟩, hset⟩
        exact hc ⟨rfl, by decide, hset⟩
      · rintro ⟨⟨rfl, rfl⟩, hset⟩
        exact hc ⟨rfl, by decide, hset⟩
  · have h1 : (enqueue fd_read fd_write i 0 l).socket_vec i 1 = l.socket_vec i 1 := by
      rw [enqueue_slot, if_neg (by simp)]
    rw [enqueue_queue, enqueue_queue, h1, List.append_assoc]
    refine ⟨_, rfl, fun p => ?_⟩
    rw [List.mem_append, mem_ready, mem_ready]
    constructor
    · rintro (⟨hset, hp⟩ | ⟨hset, hp⟩)
      · exact ⟨0, by decide, hset, hp⟩
      · exact ⟨1, by decide, hset, hp⟩
    · rintro ⟨j, hj, hset, hp⟩
      rcases htwo hj with rfl | rfl
      · exact .inl ⟨hset, hp⟩
      · exact .inr ⟨hset, hp⟩

/-- A loop over sockets, each with its own report, takes what is reported out
of the slots and puts it at the end of the queue. -/
theorem gather_spec {α : Type} (fd : α → Nat) (fd_read fd_write : α → List Nat) (es : List α) (l : Loop)
    {Taken : Nat → Nat → Prop} [∀ i j, Decidable (Taken i j)]
    (ht : ∀ i j, Taken i j ↔ ∃ e ∈ es, i = fd e ∧ j < ASYNC_WAIT_TYPES ∧
      FD_ISSET (fd e) j (fd_read e) (fd_write e) = true) {l' : Loop}
    (hl' : es.foldl (fun l e => enqueue (fd_read e) (fd_write e) (fd e) 1 (enqueue (fd_read e) (fd_write e) (fd e) 0 l)) l
      = l') :
    (∀ i j, l'.socket_vec i j = if Taken i j then none else l.socket_vec i j) ∧
    ∃ found, l'.q_head = l.q_head ++ found ∧ ∀ p, p ∈ found ↔ ∃ i j, Taken i j ∧ l.socket_vec i j = some p := by
  induction es generalizing l Taken with
  | nil =>
    subst hl'
    have hno : ∀ i j, ¬ Taken i j := fun i j hij => by
      obtain ⟨e, he, -⟩ := (ht i j).1 hij
      cases he
    refine ⟨fun i j => ?_, [], (List.append_nil _).symm, fun p => ?_⟩
    · rw [if_neg (hno i j)]
      rfl
    · simp [hno]
  | cons e es ih =>
    obtain ⟨hslot₁, found₁, hq₁, hfound₁⟩ := enqueue_both (fd_read e) (fd_write e) (fd e) l
    rw [List.foldl_cons] at hl'
    classical
    obtain ⟨hslot, found, hq, hfound⟩ := ih _ (fun i j => Iff.rfl) hl'
    have hcons : ∀ i j, Taken i j ↔ (i = fd e ∧ j < ASYNC_WAIT_TYPES ∧
        FD_ISSET (fd e) j (fd_read e) (fd_write e) = true) ∨ ∃ e' ∈ es, i = fd e' ∧ j < ASYNC_WAIT_TYPES ∧
        FD_ISSET (fd e') j (fd_read e') (fd_write e') = true := by
      intro i j
      rw [ht]
      simp only [List.mem_cons, exists_eq_or_imp]
    refine ⟨fun i j => ?_, found₁ ++ found, ?_, fun p => ?_⟩
    · rw [hslot, hslot₁, if_congr (hcons i j) rfl rfl, ite_or]
      split <;> split <;> rfl
    · rw [hq, hq₁, List.append_assoc]
    · rw [List.mem_append, hfound₁, hfound]
      constructor
      · rintro (⟨j, hj, hset, hp⟩ | ⟨i, j, htk, hp⟩)
        · exact ⟨fd e, j, (hcons _ _).2 (.inl ⟨rfl, hj, hset⟩), hp⟩
        · rw [hslot₁] at hp
          split at hp
          · cases hp
          · exact ⟨i, j, (hcons i j).2 (.inr htk), hp⟩
      · rintro ⟨i, j, htk, hp⟩
        -- the first report that names the slot takes it
        by_cases hfirst : i = fd e ∧ j < ASYNC_WAIT_TYPES ∧ FD_ISSET (fd e) j (fd_read e) (fd_write e) = true
        · obtain ⟨rfl, hj, hset⟩ := hfirst
          exact .inl ⟨j, hj, hset, hp⟩
        · refine .inr ⟨i, j, ((hcons i j).1 htk).resolve_left hfirst, ?_⟩
          rw [hslot₁, if_neg hfirst]
          exact hp

/-- What `collect` takes out of the slots goes to the end of the queue. -/
theorem collect_spec (fd_read fd_write : List Nat) (n : Nat) (l : Loop) :
    (∀ i j, (collect fd_read fd_write n l).socket_vec i j =
      if Collected fd_read fd_write n i j then none else l.socket_vec i j) ∧
    ∃ found, (collect fd_read fd_write n l).q_head = l.q_head ++ found ∧
      ∀ p, p ∈ found ↔ ∃ i j, Collected fd_read fd_write n i j ∧ l.socket_vec i j = some p := by
  refine gather_spec (fun i => i) (fun _ => fd_read) (fun _ => fd_write) (List.range n) l (fun i j => ?_) rfl
  simp only [List.mem_range, Collected]
  constructor
  · rintro ⟨hi, hj, hset⟩
    exact ⟨i, hi, rfl, hj, hset⟩
  · rintro ⟨_, hi, rfl, hj, hset⟩
    exact ⟨hi, hj, hset⟩

/-- Every socket with a callback is at most `maxfd`. -/
theorem le_maxfd (l : Loop) {i : Nat} (hi : i < SOCKET_VEC_SIZE)
    (hs : (l.socket_vec i 0).isSome ∨ (l.socket_vec i 1).isSome) : ∃ m, maxfd l = some m ∧ i ≤ m := by
  unfold maxfd
  have hall : ∀ n, ∀ k < n, (l.socket_vec k 0).isSome ∨ (l.socket_vec k 1).isSome →
      ∃ m, (List.range n).foldl (fun m i => if (l.socket_vec i 0).isSome ∨ (l.socket_vec i 1).isSome then some i else m)
        none = some m ∧ k ≤ m := by
    intro n
    induction n with
    | zero => exact fun k hk => absurd hk (Nat.not_lt_zero k)
    | succ n ih =>
      intro k hk hsome
      rw [List.range_succ, List.foldl_append, List.foldl_cons, List.foldl_nil]
      split
      · exact ⟨n, rfl, Nat.le_of_lt_succ hk⟩
      · rename_i hno
        rcases Nat.lt_succ_iff_lt_or_eq.1 hk with hlt | rfl
        · exact ih k hlt hsome
        · exact absurd hsome hno
  exact hall SOCKET_VEC_SIZE i hi hs

theorem LoopRel.le_maxfd {l : Loop} {recs : Ptr → callback} (h : LoopRel l recs) {i j : Nat} {p : Ptr}
    (hp : l.socket_vec i j = some p) : ∃ m, maxfd l = some m ∧ i ≤ m := by
  obtain ⟨-, -, hi, hj⟩ := h.slot i j p hp
  have hj' : j = 0 ∨ j = 1 := by
    unfold ASYNC_WAIT_TYPES at hj
    omega
  have hsome : (l.socket_vec i 0).isSome ∨ (l.socket_vec i 1).isSome := by
    rcases hj' with rfl | rfl
    · exact .inl (by rw [hp]; rfl)
    · exact .inr (by rw [hp]; rfl)
  exact Event.le_maxfd l hi hsome

/-- Up to `maxfd`, everything that is set is collected. -/
theorem collect_all {l : Loop} {recs : Ptr → callback} (h : LoopRel l recs) {m : Nat} (hm : maxfd l = some m)
    (fd_read fd_write : List Nat) :
    (∀ i j, (collect fd_read fd_write (m + 1) l).socket_vec i j =
      if FD_ISSET i j fd_read fd_write = true then none else l.socket_vec i j) ∧
    ∃ found, (collect fd_read fd_write (m + 1) l).q_head = l.q_head ++ found ∧
      ∀ p, p ∈ found ↔ ∃ i j, FD_ISSET i j fd_read fd_write = true ∧ l.socket_vec i j = some p := by
  obtain ⟨hslot, found, hq, hfound⟩ := collect_spec fd_read fd_write (m + 1) l
  have hin : ∀ i j p, l.socket_vec i j = some p → FD_ISSET i j fd_read fd_write = true →
      Collected fd_read fd_write (m + 1) i j := by
    intro i j p hp hset
    obtain ⟨m', hm', hle⟩ := h.le_maxfd hp
    rw [hm] at hm'
    cases hm'
    exact ⟨Nat.lt_succ_of_le hle, (h.slot i j p hp).2.2.2, hset⟩
  refine ⟨fun i j => ?_, found, hq, fun p => ?_⟩
  · rw [hslot]
    cases hp : l.socket_vec i j with
    | none => split <;> split <;> rfl
    | some p =>
      by_cases hset : FD_ISSET i j fd_read fd_write = true
      · rw [if_pos (hin i j p hp hset), if_pos hset]
      · rw [if_neg fun hc => hset hc.2.2, if_neg hset]
  · rw [hfound]
    constructor
    · rintro ⟨i, j, hc, hp⟩
      exact ⟨i, j, hc.2.2, hp⟩
    · rintro ⟨i, j, hset, hp⟩
      exact ⟨i, j, hin i j p hp hset, hp⟩

/-- A batch starts with the queue and what was found ready. -/
theorem startBatch_loop (h : LoopGood s) {l : Loop} {fd_read fd_write : List Nat} {found : List Ptr}
    (hidle : s.loop.frame = .idle) (hq : l.q_head = s.loop.q_head ++ found)
    (hslot : ∀ i j, l.socket_vec i j =
      if FD_ISSET i j fd_read fd_write = true then none else s.loop.socket_vec i j)
    (hfound : ∀ p, p ∈ found ↔ ∃ i j, FD_ISSET i j fd_read fd_write = true ∧ s.loop.socket_vec i j = some p)
    (hnd : found.Nodup) : LoopGood (startBatch s l fd_read fd_write) := by
  have horigin : ∀ p ∈ found, ∃ i j, originOf (s.pool.recs p) = some (i, j) ∧ s.loop.socket_vec i j = some p ∧
      FD_ISSET i j fd_read fd_write = true ∧ Named (s.pool.recs p) := by
    intro p hp
    obtain ⟨i, j, hset, hslot⟩ := (hfound p).1 hp
    obtain ⟨hr, hh, -, -⟩ := h.rel.slot i j p hslot
    exact ⟨i, j, originOf_some hr hh, hslot, hset, .inr ⟨i, j, hr, hh⟩⟩
  have hqnone : ∀ p ∈ s.loop.q_head, originOf (s.pool.recs p) = none := fun p hp => originOf_none (h.rel.queue p hp)
  have hinj : ∀ p ∈ found, ∀ q ∈ found, originOf (s.pool.recs p) = originOf (s.pool.recs q) → p = q := by
    intro p hp q hq hpq
    obtain ⟨i, j, hop, hsp, -, -⟩ := horigin p hp
    obtain ⟨i', j', hoq, hsq, -, -⟩ := horigin q hq
    rw [hop, hoq] at hpq
    cases hpq
    rw [hsp] at hsq
    cases hsq
    rfl
  refine ⟨⟨fun i j p hp => ?_, by simp [startBatch], fun p hp => ?_, ?_⟩, ?_⟩
  · have hp : l.socket_vec i j = some p := hp
    rw [hslot] at hp
    split at hp
    · cases hp
    · exact h.rel.slot i j p hp
  · have hp : p ∈ l.q_head := hp
    rw [hq] at hp
    rcases List.mem_append.1 hp with hp | hp
    · exact .inl (h.rel.queue p hp)
    · obtain ⟨i, j, -, -, -, hn⟩ := horigin p hp
      exact hn
  · show l.q_head.Pairwise _
    rw [hq]
    refine List.pairwise_append.2 ⟨?_, ?_, fun p hp q _ _ => hqnone p hp⟩
    · exact List.pairwise_of_forall_mem_list fun p hp q _ _ => hqnone p hp
    · exact hnd.imp_of_mem fun {p q} hp hq hne heq => absurd (hinj p hp q hq heq) hne
  · have hrun : (loopsOf s).running = false := by simp [loopsOf, hidle]
    have hitems : ∀ b, b ∈ itemsOf s.pool.recs found ↔ ∃ i j, b.2 = some (i, j) ∧ (loopsOf s).slots i j = some b.1 ∧
        FD_ISSET i j fd_read fd_write = true ∧ b.1.cb ≠ 0 := by
      intro b
      constructor
      · intro hb
        obtain ⟨p, hp, rfl⟩ := List.mem_map.1 hb
        obtain ⟨hp, hcb⟩ := List.mem_filter.1 hp
        obtain ⟨i, j, hop, hsp, hset, -⟩ := horigin p hp
        exact ⟨i, j, hop, by simp [loopsOf, hsp], hset, of_decide_eq_true hcb⟩
      · rintro ⟨i, j, hb, hsb, hset, hcb⟩
        obtain ⟨p, hsp, huse⟩ := Option.map_eq_some_iff.1 hsb
        obtain ⟨hr, hh, -, -⟩ := h.rel.slot i j p hsp
        refine List.mem_map.2 ⟨p, List.mem_filter.2 ⟨(hfound p).2 ⟨i, j, hset, hsp⟩, decide_eq_true ?_⟩, ?_⟩
        · rw [← huse] at hcb
          exact hcb
        · exact Prod.ext huse ((originOf_some hr hh).trans hb.symm)
    have hitemsnd : (itemsOf s.pool.recs found).Nodup := by
      refine (hnd.filter _).map_on fun p hp q hq hpq => ?_
      exact hinj p (List.mem_filter.1 hp).1 q (List.mem_filter.1 hq).1 (congrArg Prod.snd hpq)
    refine (h.inv.step (.poll hrun hitems hitemsnd)).of_eq (fun i j => ?_) rfl ?_ rfl rfl rfl
    · show Option.map _ (l.socket_vec i j) = if _ then none else Option.map _ (s.loop.socket_vec i j)
      rw [hslot]
      split
      · rfl
      · rfl
    · show itemsOf s.pool.recs l.q_head = _
      rw [hq]
      unfold itemsOf
      rw [List.filter_append, List.map_append]
      refine congrArg (· ++ _) ?_
      show _ = ((s.loop.q_head.map _).filter _).map _
      rw [List.filter_map, List.map_map]
      apply List.map_congr_left
      intro p hp
      rw [hqnone p (List.mem_filter.1 hp).1]
      rfl

/-- With no descriptor set, nothing is found. -/
theorem isset_nil (i j : Nat) : FD_ISSET i j [] [] = false := by
  simp [FD_ISSET]

theorem event_wait2_loop (ho : Sound s) (h : LoopGood s) {tv : Option timeval} {sel : Select} {r : Status}
    (hidle : s.loop.frame = .idle) (hst : NR_async_event_wait2 s tv sel = (r, s')) : LoopGood s' := by
  have ho' := event_wait2_owned ho.owned hst
  rcases event_wait2_cases hst with rfl | rfl | ⟨m, hm, rfl⟩
  · exact h
  · have hnone : ∀ i j, ¬ FD_ISSET i j [] [] = true := fun i j => by simp [isset_nil]
    refine startBatch_loop h hidle (List.append_nil _).symm (fun i j => ?_) (fun p => ?_) List.nodup_nil
    · rw [if_neg (hnone i j)]
    · simp [isset_nil]
  · obtain ⟨hslot, found, hq, hfound⟩ := collect_all h.rel hm sel.fd_read sel.fd_write
    refine startBatch_loop h hidle hq hslot hfound ?_
    have hw : (collect sel.fd_read sel.fd_write (m + 1) s.loop).q_head.Nodup := ho'.working
    rw [hq] at hw
    exact (List.nodup_append.1 hw).2.1

/-! ## The walk over the batch -/

theorem loop_step_loop (ho : Sound s) (h : LoopGood s) {r : Status} (hst : loop_step s = some (r, s')) :
    LoopGood s' := by
  have hl := loop_step_ok ho.loop hst
  rcases loop_step_cases ho.loop hst with ⟨events, hf, hw, hn, rfl⟩ | ⟨events, n1, rest, hf, hw, hn, hcb, rfl⟩ |
    ⟨events, n1, rest, hf, hw, hn, events', rfl⟩
  · have hrun : (loopsOf s).running = true := by simp [loopsOf, hf]
    have hbatch : (loopsOf s).batch = [] := by simp [loopsOf, Loop.uncalled, hf, hw, itemsOf]
    refine ⟨⟨h.rel.slot, h.rel.queue, h.rel.named, h.rel.apart⟩, ?_⟩
    refine (h.inv.step (.finish hrun hbatch)).of_eq (fun _ _ => rfl) rfl ?_ rfl rfl rfl
    show itemsOf _ _ = (loopsOf s).batch
    rw [hbatch]
    simp [Loop.uncalled, hw, itemsOf]
  · have hrun : (loopsOf s).running = true := by simp [loopsOf, hf]
    have hbatch : (loopsOf s).batch = ((s.pool.recs n1).use, originOf (s.pool.recs n1)) :: itemsOf s.pool.recs rest := by
      simp [loopsOf, Loop.uncalled, hf, hw, itemsOf, hcb]
    refine ⟨⟨h.rel.slot, h.rel.queue, h.rel.named, h.rel.apart⟩, ?_⟩
    refine (h.inv.step (.fire hrun hbatch)).of_eq (fun _ _ => rfl) rfl ?_ ?_ rfl rfl
    · show itemsOf _ _ = itemsOf s.pool.recs rest
      simp [Loop.uncalled, hw]
    · rw [hrun]
      simp
  · have herase : s.loop.w_q.erase n1 = rest := by rw [hw, List.erase_cons_head]
    have hsub : (s.loop.w_q.erase n1).Sublist s.loop.w_q := List.erase_sublist
    refine ⟨⟨h.rel.slot, h.rel.queue, fun p hp => h.rel.named p (hsub.subset hp), h.rel.apart.sublist hsub⟩, ?_⟩
    refine h.inv.of_eq (fun _ _ => rfl) rfl ?_ ?_ rfl rfl
    · show itemsOf s.pool.recs (s.loop.w_q.erase n1) = itemsOf s.pool.recs s.loop.uncalled
      rw [herase]
      rcases hf with ⟨hf, hcb⟩ | ⟨n2, hf⟩
      · simp [Loop.uncalled, hf, hw, itemsOf, hcb]
      · simp [Loop.uncalled, hf, hw]
    · have hrun : (loopsOf s).running = true := by
        rcases hf with ⟨hf, -⟩ | ⟨n2, hf⟩ <;> simp [loopsOf, hf]
      rw [hrun]
      simp [finishCallback]

/-! ## Every run -/

theorem step_loop (ho : Sound s) (h : LoopGood s) {op : Op} {r : Status} (hok : Permitted s op = true)
    (hst : step s op = some (r, s')) : LoopGood s' := by
  cases op with
  | wait sock how cb cb_arg => exact wait_loop ho h hst
  | cancel sock how => exact cancel_loop ho h hok hst
  | schedule cb cb_arg => exact schedule_loop ho h hst
  | event_wait2 tv sel =>
    simp only [Permitted, Bool.and_eq_true, decide_eq_true_eq] at hok
    exact event_wait2_loop ho h hok.2 (Option.some.inj hst)
  | loop => exact loop_step_loop ho h hst
  | timer_set delay_ms cb cb_arg => exact timer_set_loop ho h hst
  | timer_cancel p =>
    simp only [Permitted, Bool.and_eq_true, Bool.or_eq_true] at hok
    exact timer_cancel_loop ho h hok.2 hst
  | update_time tv => exact update_time_loop h (Option.some.inj hst)
  | timer => exact timer_step_loop ho h hst

theorem initial_loop : LoopGood initial := by
  have hlog : ∀ k e, ¬ Logged (loopsOf initial).log k e := fun k e hk => (by cases hk)
  have hborn : ∀ k x, ¬ Born (loopsOf initial).log k x := fun k x hk => hk.elim (hlog _ _) fun ⟨_, _, hk⟩ => hlog _ _ hk
  refine ⟨⟨?_, ?_, ?_, List.Pairwise.nil⟩, ⟨⟨?_, ?_, ?_, ?_⟩, ⟨?_, ?_⟩, ⟨?_, ?_⟩, fun _ => rfl, ⟨?_, ?_⟩, ?_,
    ⟨?_, List.nodup_nil⟩, ⟨List.Pairwise.nil, ?_, ?_⟩⟩⟩
  · exact fun i j p hp => (by cases hp)
  · exact fun p hp => (by cases hp)
  · exact fun p hp => (by cases hp)
  · exact fun x i j hi => absurd hi (hlog _ _)
  · exact fun x j hj => absurd hj (hlog _ _)
  · exact fun k x m e n hk => absurd hk (hlog _ _)
  · exact fun k k' x y j j' _ hk => absurd hk (hlog _ _)
  · exact fun k x hk => absurd hk (hborn k x)
  · exact fun k k' x y hk => absurd hk (hborn k x)
  · exact fun m m' e e' _ hm => absurd hm (hlog _ _)
  · exact fun _ m e hm => absurd hm (hlog _ _)
  · exact fun i j x hx => (by cases hx)
  · exact fun k x i j hk => absurd hk (hlog _ _)
  · exact fun x hx => (by cases hx)
  · exact fun b hb => (by cases hb)
  · exact fun k x hk => absurd hk (hlog _ _)
  · exact fun x hx => (by cases hx)

theorem Reaches.loop {evs : List (Op × Status)} (h : Reaches evs s) : Sound s ∧ LoopGood s :=
  h.inv (fun s => Sound s ∧ LoopGood s) ⟨initial_sound, initial_loop⟩ fun _ _ _ _ hI hok hst =>
    ⟨step_sound hI.1 hok hst, step_loop hI.1 hI.2 hok hst⟩

end

end Nrappkit.Event
