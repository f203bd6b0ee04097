import Nrappkit.Event.LoopTheorems
/-!
# The epoll build

`async_wait.c` as it is built with `USE_EPOLL`. The tables and the walk over a
batch are those of the select build; what differs is how a batch is made. A
descriptor enters the set of the kernel in `NR_async_wait`, for both
directions, and leaves it in `NR_async_cancel`. `epoll_wait` reports the
descriptors of its set that are ready, each with the directions it is ready
in, in any order and at most `MAX_EVENTS` of them.
-/
open Lib

namespace Nrappkit.Event

def MAX_EVENTS : Nat := 500

/-- An entry of `events`, with the bits `EPOLLIN` and `EPOLLOUT` of its mask. -/
structure epoll_event where
  fd : Nat
  epollin : Bool
  epollout : Bool
  deriving DecidableEq

def epoll_event.fd_read (e : epoll_event) : List Nat := if e.epollin then [e.fd] else []

def epoll_event.fd_write (e : epoll_event) : List Nat := if e.epollout then [e.fd] else []

structure Epoll where
  async : Async
  /-- The set of `epollfd`. -/
  fds : List Nat
  /-- The read callbacks of the batch, a local variable of
  `NR_async_event_wait2`. -/
  reads : Nat

def Epoll.initial : Epoll := { async := Event.initial, fds := [], reads := 0 }

/-- What `epoll_wait` reports: descriptors of its set that are ready to read or
to write, all of them if they are not too many. -/
structure Reports (fds ready_read ready_write : List Nat) (events : List epoll_event) : Prop where
  distinct : (events.map epoll_event.fd).Nodup
  ready : ∀ e ∈ events, e.fd ∈ fds ∧ e.epollin = decide (e.fd ∈ ready_read) ∧
    e.epollout = decide (e.fd ∈ ready_write) ∧ (e.epollin || e.epollout) = true
  count : events.length = min MAX_EVENTS (fds.filter fun i => i ∈ ready_read ∨ i ∈ ready_write).length

instance (fds ready_read ready_write : List Nat) (events : List epoll_event) :
    Decidable (Reports fds ready_read ready_write events) :=
  decidable_of_iff ((events.map epoll_event.fd).Nodup ∧
      (∀ e ∈ events, e.fd ∈ fds ∧ e.epollin = decide (e.fd ∈ ready_read) ∧
        e.epollout = decide (e.fd ∈ ready_write) ∧ (e.epollin || e.epollout) = true) ∧
      events.length = min MAX_EVENTS (fds.filter fun i => i ∈ ready_read ∨ i ∈ ready_write).length)
    ⟨fun h => ⟨h.1, h.2.1, h.2.2⟩, fun h => ⟨h.distinct, h.ready, h.count⟩⟩

/-- `epoll_ctl` with `EPOLL_CTL_ADD`; `EEXIST` is no error. -/
def epollAdd (fds : List Nat) (fd : Nat) : List Nat := if fd ∈ fds then fds else fds ++ [fd]

/-- `epoll_ctl` with `EPOLL_CTL_DEL`; `ENOENT` is no error. -/
def epollDel (fds : List Nat) (fd : Nat) : List Nat := fds.erase fd

/-- The callbacks to fire, for the descriptors that were reported. -/
def collectEvents (events : List epoll_event) (l : Loop) : Loop :=
  events.foldl (fun l e => enqueue e.fd_read e.fd_write e.fd 1 (enqueue e.fd_read e.fd_write e.fd 0 l)) l

/-- The directions that were reported. -/
def fdRead (events : List epoll_event) : List Nat := events.flatMap epoll_event.fd_read

def fdWrite (events : List epoll_event) : List Nat := events.flatMap epoll_event.fd_write

/-- `NR_async_event_wait2` up to the test of its loop, with what `epoll_wait`
reported or `none` if it failed. -/
def Epoll.NR_async_event_wait2 (s : Epoll) : Option (List epoll_event) → Status × Epoll
  | none => (.R_INTERNAL, s)
  | some [] => (.R_EOD, s)
  | some events => (.ok, { s with
    async := startBatch s.async (collectEvents events s.async.loop) (fdRead events) (fdWrite events)
    reads := (events.filter fun e => (s.async.loop.socket_vec e.fd 0).isSome && e.epollin).length })

inductive EpollOp where
  | call (op : Op)
  /-- With the directions the sockets are ready in. -/
  | event_wait2 (ready_read ready_write : List Nat) (events : Option (List epoll_event))

def epollStep (s : Epoll) : EpollOp → Option (Status × Epoll)
  | .call (.wait sock how cb cb_arg) => (NR_async_wait s.async sock how cb cb_arg).map fun (r, async) =>
      (r, { s with async, fds := if r = .ok then epollAdd s.fds sock.toNat else s.fds })
  | .call (.cancel sock how) => (NR_async_cancel s.async sock how).map fun (r, async) =>
      (r, { s with async, fds := if r = .ok then epollDel s.fds sock.toNat else s.fds })
  | .call (.event_wait2 _ _) => none
  | .call .loop => (loop_step s.async).map fun (r, async) =>
      -- the call fails if no read callback was in the batch
      (if async.loop.frame = .idle ∧ s.reads = 0 then .R_EOD else r, { s with async })
  | .call op => (step s.async op).map fun (r, async) => (r, { s with async })
  | .event_wait2 _ _ events => some (s.NR_async_event_wait2 events)

/-- The calls clients make, with what the kernel may report. -/
def EpollPermitted (s : Epoll) : EpollOp → Bool
  | .call op => Permitted s.async op
  | .event_wait2 ready_read ready_write events => s.async.inClient && s.async.loop.frame = .idle &&
    events.all fun events => decide (Reports s.fds ready_read ready_write events)

abbrev EpollReaches (evs : List (EpollOp × Status)) (s : Epoll) : Prop :=
  Run epollStep (fun s op => EpollPermitted s op) Epoll.initial evs s

/-- What `select` returns for the callbacks that wait, with the same
directions ready. -/
def selectOf (l : Loop) (ready_read ready_write : List Nat) : Select :=
  let fd_read := (List.range SOCKET_VEC_SIZE).filter fun i => (l.socket_vec i 0).isSome && decide (i ∈ ready_read)
  let fd_write := (List.range SOCKET_VEC_SIZE).filter fun i => (l.socket_vec i 1).isSome && decide (i ∈ ready_write)
  { r := fd_read.length + fd_write.length, fd_read, fd_write, eintr := false }

/-! ## Every run of the epoll build -/

theorem collectEvents_owned {s : Async} {l : Loop} (h : Owned { s with loop := l }) (events : List epoll_event) :
    Owned { s with loop := collectEvents events l } := by
  unfold collectEvents
  induction events generalizing l with
  | nil => exact h
  | cons e es ih => exact ih (enqueue_owned (enqueue_owned h _ _ e.fd 0) _ _ e.fd 1)

/-- A direction is reported by the event of its descriptor. -/
theorem reported_iff {events : List epoll_event} {i j : Nat} :
    FD_ISSET i j (fdRead events) (fdWrite events) = true ↔
      ∃ e ∈ events, i = e.fd ∧ FD_ISSET e.fd j e.fd_read e.fd_write = true := by
  unfold FD_ISSET fdRead fdWrite epoll_event.fd_read epoll_event.fd_write
  split
  · simp only [decide_eq_true_eq, List.mem_flatMap, List.mem_ite_nil_right, List.mem_singleton]
    exact exists_congr fun e => and_congr_right fun _ => by tauto
  · simp only [decide_eq_true_eq, List.mem_flatMap, List.mem_ite_nil_right, List.mem_singleton]
    exact exists_congr fun e => and_congr_right fun _ => by tauto

section
variable {s s' : Epoll}

/-- What is reported is taken out of the slots and put at the end of the queue. -/
theorem collectEvents_spec (h : LoopRel s.async.loop s.async.pool.recs) (events : List epoll_event) :
    (∀ i j, (collectEvents events s.async.loop).socket_vec i j =
      if FD_ISSET i j (fdRead events) (fdWrite events) = true then none else s.async.loop.socket_vec i j) ∧
    ∃ found, (collectEvents events s.async.loop).q_head = s.async.loop.q_head ++ found ∧
      ∀ p, p ∈ found ↔ ∃ i j, FD_ISSET i j (fdRead events) (fdWrite events) = true ∧
        s.async.loop.socket_vec i j = some p := by
  have htaken : ∀ i j, j < ASYNC_WAIT_TYPES ∧ FD_ISSET i j (fdRead events) (fdWrite events) = true ↔
      ∃ e ∈ events, i = e.fd ∧ j < ASYNC_WAIT_TYPES ∧ FD_ISSET e.fd j e.fd_read e.fd_write = true := by
    intro i j
    rw [reported_iff]
    constructor
    · rintro ⟨hj, e, he, rfl, hset⟩
      exact ⟨e, he, rfl, hj, hset⟩
    · rintro ⟨e, he, rfl, hj, hset⟩
      exact ⟨hj, e, he, rfl, hset⟩
  obtain ⟨hslot, found, hq, hfound⟩ := gather_spec epoll_event.fd epoll_event.fd_read epoll_event.fd_write events
    s.async.loop htaken (rfl : collectEvents events s.async.loop = _)
  refine ⟨fun i j => ?_, found, hq, fun p => ?_⟩
  · rw [hslot]
    cases hp : s.async.loop.socket_vec i j with
    | none => split <;> split <;> rfl
    | some p =>
      obtain ⟨-, -, -, hj⟩ := h.slot i j p hp
      simp only [hj, true_and]
  · rw [hfound]
    constructor
    · rintro ⟨i, j, ⟨-, hset⟩, hp⟩
      exact ⟨i, j, hset, hp⟩
    · rintro ⟨i, j, hset, hp⟩
      exact ⟨i, j, ⟨(h.slot i j p hp).2.2.2, hset⟩, hp⟩

/-- What the epoll build does in a call: it fails, or starts on a batch. -/
theorem epoll_wait2_cases {r : Status} {events : Option (List epoll_event)}
    (hst : s.NR_async_event_wait2 events = (r, s')) :
    (events = none ∨ events = some []) ∧ s' = s ∨ ∃ es reads, events = some es ∧ es ≠ [] ∧ s' = { s with
      async := startBatch s.async (collectEvents es s.async.loop) (fdRead es) (fdWrite es), reads } := by
  unfold Epoll.NR_async_event_wait2 at hst
  split at hst
  · cases hst
    exact .inl ⟨.inl rfl, rfl⟩
  · cases hst
    exact .inl ⟨.inr rfl, rfl⟩
  · rename_i es hne
    cases hst
    exact .inr ⟨es, _, rfl, fun hes => hne (by rw [hes]), rfl⟩

/-- Every other call is one of the select build. -/
theorem epollStep_call {op : Op} {r : Status} (hst : epollStep s (.call op) = some (r, s')) :
    ∃ r', step s.async op = some (r', s'.async) := by
  cases op with
  | event_wait2 tv sel => cases hst
  | wait _ _ _ _ | cancel _ _ | schedule _ _ | loop | timer_set _ _ _ | timer_cancel _ | update_time _ | timer =>
    unfold epollStep at hst
    obtain ⟨a, ha, heq⟩ := Option.map_eq_some_iff.1 hst
    cases heq
    exact ⟨a.1, ha⟩

theorem epoll_wait2_sound (h : Sound s.async) {r : Status} {events : Option (List epoll_event)}
    (hst : s.NR_async_event_wait2 events = (r, s')) : Sound s'.async := by
  rcases epoll_wait2_cases hst with ⟨-, rfl⟩ | ⟨es, reads, -, -, rfl⟩
  · exact h
  · have howned : Owned { s.async with loop := s.async.loop } := h.owned
    exact h.frame (startBatch_owned (collectEvents_owned howned es) _ _) rfl rfl (fun _ _ _ => rfl)
      (Pending.other (by simp))

theorem epoll_wait2_loop (ho : Sound s.async) (h : LoopGood s.async) (hidle : s.async.loop.frame = .idle) {r : Status}
    {events : Option (List epoll_event)} (hst : s.NR_async_event_wait2 events = (r, s')) : LoopGood s'.async := by
  have ho' := epoll_wait2_sound ho hst
  rcases epoll_wait2_cases hst with ⟨-, rfl⟩ | ⟨es, reads, -, -, rfl⟩
  · exact h
  · obtain ⟨hslot, found, hq, hfound⟩ := collectEvents_spec h.rel es
    refine startBatch_loop h hidle hq hslot hfound ?_
    have hw : (collectEvents es s.async.loop).q_head.Nodup := ho'.owned.working
    rw [hq] at hw
    exact (List.nodup_append.1 hw).2.1

theorem epollStep_good (h : Sound s.async ∧ LoopGood s.async) {op : EpollOp} {r : Status}
    (hok : EpollPermitted s op = true) (hst : epollStep s op = some (r, s')) :
    Sound s'.async ∧ LoopGood s'.async := by
  cases op with
  | call op =>
    obtain ⟨r', hst'⟩ := epollStep_call hst
    exact ⟨step_sound h.1 hok hst', step_loop h.1 h.2 hok hst'⟩
  | event_wait2 ready_read ready_write events =>
    simp only [EpollPermitted, Bool.and_eq_true, decide_eq_true_eq] at hok
    have hst' := Option.some.inj hst
    exact ⟨epoll_wait2_sound h.1 hst', epoll_wait2_loop h.1 h.2 hok.1.2 hst'⟩

/-- The records and the log of the event loop are in order in the epoll build
too. -/
theorem EpollReaches.good {evs : List (EpollOp × Status)} (h : EpollReaches evs s) :
    Sound s.async ∧ LoopGood s.async :=
  h.inv (fun s => Sound s.async ∧ LoopGood s.async) ⟨initial_sound, initial_loop⟩
    fun _ _ _ _ hs hok hst => epollStep_good hs hok hst

/-! ## The batches -/

/-- The callbacks that wait for a direction the socket is ready in. -/
def readyOf (l : Loop) (ready_read ready_write : List Nat) (i : Nat) : List Ptr :=
  (if FD_ISSET i 0 ready_read ready_write = true then (l.socket_vec i 0).toList else []) ++
    if FD_ISSET i 1 ready_read ready_write = true then (l.socket_vec i 1).toList else []

/-- Every socket with such a callback is reported, in the order in which the
select build visits the sockets, and if none is reported nothing is scheduled. -/
structure Covers (l : Loop) (ready_read ready_write : List Nat) (events : List epoll_event) : Prop where
  reported : ∀ i, readyOf l ready_read ready_write i ≠ [] → i ∈ events.map epoll_event.fd
  ordered : (events.map epoll_event.fd).Pairwise fun i k =>
    readyOf l ready_read ready_write i ≠ [] → readyOf l ready_read ready_write k ≠ [] → i < k
  scheduled : events = [] → l.q_head = []

/-- The callbacks of a log, in the order in which they were called. -/
def firedUses (log : List Ev) : List Use := log.filterMap fun
  | .fired x => some x
  | _ => none

/-- What a call of either build does: what is scheduled becomes the batch, and
behind it what waits for a direction it is ready in. -/
structure Began (s : Async) (ready_read ready_write : List Nat) (s' : Async) : Prop where
  pool : s'.pool = s.pool
  wheel : s'.wheel = s.wheel
  socket_vec : ∀ i j, s'.loop.socket_vec i j =
    if FD_ISSET i j ready_read ready_write = true then none else s.loop.socket_vec i j
  q_head : s'.loop.q_head = []
  w_q : s'.loop.w_q = s.loop.q_head ++ (List.range SOCKET_VEC_SIZE).flatMap (readyOf s.loop ready_read ready_write)
  w_q_n1 : s'.loop.w_q_n1 = s'.loop.w_q.head?
  frame : s'.loop.frame = .head 0 ∨ s'.loop.frame = .idle ∧ s'.loop.w_q = []
  fired : firedUses s'.log = firedUses s.log

section
variable {ready_read ready_write : List Nat}

theorem mem_readyOf {l : Loop} {i : Nat} {p : Ptr} : p ∈ readyOf l ready_read ready_write i ↔
    ∃ j < ASYNC_WAIT_TYPES, FD_ISSET i j ready_read ready_write = true ∧ l.socket_vec i j = some p := by
  unfold readyOf
  rw [List.mem_append, mem_ready, mem_ready]
  constructor
  · rintro (h | h)
    · exact ⟨0, by decide, h⟩
    · exact ⟨1, by decide, h⟩
  · rintro ⟨j, hj, h⟩
    rcases (show j = 0 ∨ j = 1 by unfold ASYNC_WAIT_TYPES at hj; omega) with rfl | rfl
    · exact .inl h
    · exact .inr h

theorem readyOf_congr {l l' : Loop} {fd_read fd_write : List Nat} {i : Nat} (hslot : ∀ j, l'.socket_vec i j = l.socket_vec i j)
    (hset : ∀ j p, l.socket_vec i j = some p → FD_ISSET i j fd_read fd_write = FD_ISSET i j ready_read ready_write) :
    readyOf l' fd_read fd_write i = readyOf l ready_read ready_write i := by
  have hone : ∀ j, (if FD_ISSET i j fd_read fd_write = true then (l'.socket_vec i j).toList else []) =
      if FD_ISSET i j ready_read ready_write = true then (l.socket_vec i j).toList else [] := fun j => by
    rw [hslot]
    cases hp : l.socket_vec i j with
    | none => split <;> split <;> rfl
    | some p => rw [hset j p hp]
  unfold readyOf
  rw [hone, hone]

theorem enqueue_ready (fd_read fd_write : List Nat) (i : Nat) (l : Loop) :
    (enqueue fd_read fd_write i 1 (enqueue fd_read fd_write i 0 l)).q_head = l.q_head ++ readyOf l fd_read fd_write i := by
  have hsecond : (enqueue fd_read fd_write i 0 l).socket_vec i 1 = l.socket_vec i 1 := by
    rw [enqueue_slot, if_neg (by simp)]
  rw [enqueue_queue, enqueue_queue, hsecond, List.append_assoc]
  rfl

/-- A loop over different sockets, each with its own report, takes the callbacks
in the order of the sockets. -/
theorem gather_queue {α : Type} (fd : α → Nat) (fd_read fd_write : α → List Nat) {es : List α} (hnd : (es.map fd).Nodup)
    (l : Loop) :
    (es.foldl (fun l e => enqueue (fd_read e) (fd_write e) (fd e) 1 (enqueue (fd_read e) (fd_write e) (fd e) 0 l)) l).q_head =
      l.q_head ++ es.flatMap fun e => readyOf l (fd_read e) (fd_write e) (fd e) := by
  induction es generalizing l with
  | nil => simp
  | cons e es ih =>
    rw [List.map_cons, List.nodup_cons] at hnd
    -- the others are where they were
    have hrest : ∀ e' ∈ es, readyOf (enqueue (fd_read e) (fd_write e) (fd e) 1 (enqueue (fd_read e) (fd_write e) (fd e) 0 l))
        (fd_read e') (fd_write e') (fd e') = readyOf l (fd_read e') (fd_write e') (fd e') := by
      refine fun e' he' => readyOf_congr (fun j => ?_) fun _ _ _ => rfl
      rw [(enqueue_both (fd_read e) (fd_write e) (fd e) l).1, if_neg]
      rintro ⟨heq, -⟩
      exact hnd.1 (heq ▸ List.mem_map_of_mem he')
    rw [List.foldl_cons, ih hnd.2, List.flatMap_cons, enqueue_ready, List.append_assoc, List.flatMap_congr hrest]

/-- The mask of a reported descriptor. -/
theorem Reports.mask {fds : List Nat} {events : List epoll_event} (h : Reports fds ready_read ready_write events)
    {e : epoll_event} (he : e ∈ events) (j : Nat) :
    FD_ISSET e.fd j e.fd_read e.fd_write = FD_ISSET e.fd j ready_read ready_write := by
  obtain ⟨-, hin, hout, -⟩ := h.ready e he
  unfold FD_ISSET epoll_event.fd_read epoll_event.fd_write
  rw [hin, hout]
  split <;> simp

/-- The directions that are reported are the ready ones of the descriptors that
are. -/
theorem Reports.isset_iff {fds : List Nat} {events : List epoll_event} (h : Reports fds ready_read ready_write events)
    {i j : Nat} : FD_ISSET i j (fdRead events) (fdWrite events) = true ↔
      FD_ISSET i j ready_read ready_write = true ∧ i ∈ events.map epoll_event.fd := by
  rw [reported_iff, List.mem_map]
  constructor
  · rintro ⟨e, he, rfl, hset⟩
    exact ⟨(h.mask he j).symm.trans hset, e, he, rfl⟩
  · rintro ⟨hset, e, he, rfl⟩
    exact ⟨e, he, rfl, (h.mask he j).trans hset⟩

/-- The epoll build takes the callbacks in the order of the report. -/
theorem collectEvents_queue {fds : List Nat} {events : List epoll_event} (h : Reports fds ready_read ready_write events)
    (l : Loop) : (collectEvents events l).q_head =
      l.q_head ++ (events.map epoll_event.fd).flatMap (readyOf l ready_read ready_write) := by
  rw [collectEvents, gather_queue epoll_event.fd epoll_event.fd_read epoll_event.fd_write h.distinct, List.flatMap_map]
  congr 1
  apply List.flatMap_congr
  intro e he
  exact readyOf_congr (fun _ => rfl) fun j _ _ => h.mask he j

section
variable {l : Loop} {recs : Ptr → callback}

theorem LoopRel.ready_lt (h : LoopRel l recs) {i : Nat} (hi : readyOf l ready_read ready_write i ≠ []) :
    i < SOCKET_VEC_SIZE := by
  obtain ⟨p, hp⟩ := List.exists_mem_of_ne_nil _ hi
  obtain ⟨j, -, -, hslot⟩ := mem_readyOf.1 hp
  exact (h.slot i j p hslot).2.2.1

theorem LoopRel.ready_key (h : LoopRel l recs) {i : Nat} {p : Ptr} (hp : p ∈ readyOf l ready_read ready_write i) :
    (recs p).resource.toNat = i := by
  obtain ⟨j, -, -, hslot⟩ := mem_readyOf.1 hp
  rw [(h.slot i j p hslot).1, Int.toNat_natCast]

theorem selectOf_fd_read (l : Loop) : (selectOf l ready_read ready_write).fd_read =
    (List.range SOCKET_VEC_SIZE).filter fun i => (l.socket_vec i 0).isSome && decide (i ∈ ready_read) := by
  dsimp only [selectOf]

theorem selectOf_fd_write (l : Loop) : (selectOf l ready_read ready_write).fd_write =
    (List.range SOCKET_VEC_SIZE).filter fun i => (l.socket_vec i 1).isSome && decide (i ∈ ready_write) := by
  dsimp only [selectOf]

/-- The descriptors `select` sets are those that are ready and waited for. -/
theorem selectOf_isset (h : LoopRel l recs) {i j : Nat} {p : Ptr} (hp : l.socket_vec i j = some p) :
    FD_ISSET i j (selectOf l ready_read ready_write).fd_read (selectOf l ready_read ready_write).fd_write =
      FD_ISSET i j ready_read ready_write := by
  obtain ⟨-, -, hi, hj⟩ := h.slot i j p hp
  have hj' : j = 0 ∨ j = 1 := by
    unfold ASYNC_WAIT_TYPES at hj
    omega
  have hsome : (l.socket_vec i j).isSome = true := by rw [hp]; rfl
  rw [selectOf_fd_read, selectOf_fd_write]
  -- either direction filters the sockets that have a callback for it
  have hmem : ∀ ready : List Nat, decide (i ∈ (List.range SOCKET_VEC_SIZE).filter fun i =>
      (l.socket_vec i j).isSome && decide (i ∈ ready)) = decide (i ∈ ready) := by
    intro ready
    rw [decide_eq_decide, List.mem_filter, List.mem_range, hsome, Bool.true_and, decide_eq_true_eq]
    exact and_iff_right hi
  rcases hj' with rfl | rfl
  · unfold FD_ISSET
    rw [if_pos rfl, if_pos rfl]
    exact hmem ready_read
  · unfold FD_ISSET
    rw [if_neg Nat.one_ne_zero, if_neg Nat.one_ne_zero]
    exact hmem ready_write

/-- If `select` sets no descriptor, nothing waits for a ready direction. -/
theorem readyOf_none (h : LoopRel l recs) (hr : ¬ (selectOf l ready_read ready_write).r > 0) (i : Nat) :
    readyOf l ready_read ready_write i = [] := by
  by_contra hne
  obtain ⟨p, hp⟩ := List.exists_mem_of_ne_nil _ hne
  obtain ⟨j, -, hset, hslot⟩ := mem_readyOf.1 hp
  rw [← selectOf_isset h hslot] at hset
  have hlen : (selectOf l ready_read ready_write).fd_read.length +
      (selectOf l ready_read ready_write).fd_write.length = 0 := by
    simp only [selectOf] at hr ⊢
    omega
  rw [List.length_eq_zero_iff.1 (Nat.eq_zero_of_add_eq_zero_right hlen),
    List.length_eq_zero_iff.1 (Nat.eq_zero_of_add_eq_zero_left hlen), isset_nil] at hset
  cases hset

/-- The select build takes them in the order of the sockets. -/
theorem collect_queue (h : LoopRel l recs) {m : Nat} (hm : maxfd l = some m) :
    (collect (selectOf l ready_read ready_write).fd_read (selectOf l ready_read ready_write).fd_write (m + 1) l).q_head =
      l.q_head ++ (List.range SOCKET_VEC_SIZE).flatMap (readyOf l ready_read ready_write) := by
  rw [collect, gather_queue (fun i => i) (fun _ => (selectOf l ready_read ready_write).fd_read)
    (fun _ => (selectOf l ready_read ready_write).fd_write) (by simpa using List.nodup_range)]
  refine congrArg (l.q_head ++ ·) ?_
  have hsame : ∀ i, readyOf l (selectOf l ready_read ready_write).fd_read (selectOf l ready_read ready_write).fd_write i =
      readyOf l ready_read ready_write i := fun i => readyOf_congr (fun _ => rfl) fun j p hp => selectOf_isset h hp
  simp only [hsame]
  refine (flatMap_eq_range_iff (fun i p hp => h.ready_key hp) (fun i hi => h.ready_lt hi) List.nodup_range).2
    ⟨fun i hi => ?_, List.pairwise_lt_range.imp fun hik _ _ => hik⟩
  obtain ⟨p, hp⟩ := List.exists_mem_of_ne_nil _ hi
  obtain ⟨j, -, -, hslot⟩ := mem_readyOf.1 hp
  obtain ⟨m', hm', hle⟩ := h.le_maxfd hslot
  rw [hm] at hm'
  cases hm'
  exact List.mem_range.2 (Nat.lt_succ_of_le hle)

/-- The slots, if nothing waits for a ready direction. -/
theorem slots_kept (h : LoopRel l recs) (hno : ∀ i, readyOf l ready_read ready_write i = []) (i j : Nat) :
    l.socket_vec i j = if FD_ISSET i j ready_read ready_write = true then none else l.socket_vec i j := by
  cases hp : l.socket_vec i j with
  | none => split <;> rfl
  | some p =>
    rw [if_neg]
    intro hset
    have hmem : p ∈ readyOf l ready_read ready_write i := mem_readyOf.2 ⟨j, (h.slot i j p hp).2.2.2, hset, hp⟩
    rw [hno] at hmem
    cases hmem

end

theorem firedUses_polled (log : List Ev) (fd_read fd_write : List Nat) :
    firedUses (log ++ [.polled fd_read fd_write]) = firedUses log := by
  simp [firedUses]

/-- A call that finds nothing to do. -/
theorem Began.nothing {a : Async} (hl : LoopOk a.loop) (h : LoopRel a.loop a.pool.recs) (hidle : a.loop.frame = .idle)
    (hno : ∀ i, readyOf a.loop ready_read ready_write i = []) (hq : a.loop.q_head = []) :
    Began a ready_read ready_write a := by
  unfold LoopOk at hl
  rw [hidle] at hl
  refine ⟨rfl, rfl, slots_kept h hno, hq, ?_, ?_, .inr ⟨hidle, hl.1⟩, rfl⟩
  · rw [hl.1, hq, List.nil_append, eq_comm, List.flatMap_eq_nil_iff]
    exact fun i _ => hno i
  · rw [hl.1, hl.2]
    rfl

/-- A call that starts on a batch. -/
theorem Began.start {a : Async} {l : Loop} (hslot : ∀ i j, l.socket_vec i j =
    if FD_ISSET i j ready_read ready_write = true then none else a.loop.socket_vec i j)
    (hq : l.q_head = a.loop.q_head ++ (List.range SOCKET_VEC_SIZE).flatMap (readyOf a.loop ready_read ready_write))
    (fd_read fd_write : List Nat) : Began a ready_read ready_write (startBatch a l fd_read fd_write) :=
  ⟨rfl, rfl, hslot, rfl, hq, rfl, .inl rfl, firedUses_polled ..⟩

theorem select_began {a a' : Async} (hl : LoopOk a.loop) (h : LoopRel a.loop a.pool.recs) (hidle : a.loop.frame = .idle)
    {tv : Option timeval} {r : Status}
    (hst : NR_async_event_wait2 a tv (selectOf a.loop ready_read ready_write) = (r, a')) :
    Began a ready_read ready_write a' := by
  -- nothing is ready
  have hbatch : (∀ i, readyOf a.loop ready_read ready_write i = []) → Began a ready_read ready_write (startBatch a a.loop [] []) := by
    refine fun hno => .start (slots_kept h hno) ?_ [] []
    rw [List.flatMap_eq_nil_iff.2 fun i _ => hno i, List.append_nil]
  unfold NR_async_event_wait2 at hst
  split at hst
  · rename_i hmax
    have hno : ∀ i, readyOf a.loop ready_read ready_write i = [] := by
      intro i
      rw [List.eq_nil_iff_forall_not_mem]
      intro p hp
      obtain ⟨j, -, -, hslot⟩ := mem_readyOf.1 hp
      obtain ⟨m, hm, -⟩ := h.le_maxfd hslot
      rw [hmax] at hm
      cases hm
    split at hst
    · rename_i hq
      cases hst
      exact .nothing hl h hidle hno hq
    · cases hst
      exact hbatch hno
  · rename_i m hm
    by_cases hpos : (selectOf a.loop ready_read ready_write).r > 0
    · rw [if_neg fun hc => absurd hc.1 (Int.ne_of_gt hpos), if_neg fun hc => absurd hc.1 (Int.not_lt.2 (Int.le_of_lt hpos)),
        if_pos hpos] at hst
      cases hst
      refine .start (fun i j => ?_) (collect_queue h hm) _ _
      rw [(collect_all h hm _ _).1]
      cases hp : a.loop.socket_vec i j with
      | none => split <;> split <;> rfl
      | some p => rw [selectOf_isset h hp]
    · have hr : ¬ (selectOf a.loop ready_read ready_write).r < 0 := by
        simp only [selectOf]
        omega
      have hfail : ¬ ((selectOf a.loop ready_read ready_write).r < 0 ∧
          ¬ (selectOf a.loop ready_read ready_write).eintr = true) := fun hc => hr hc.1
      have hno := readyOf_none h hpos
      rw [if_neg hfail, if_neg hpos] at hst
      split at hst
      · rename_i hq
        cases hst
        exact .nothing hl h hidle hno hq.2.1
      · cases hst
        exact hbatch hno

/-- The batch of the epoll build. -/
theorem epoll_batch (hl : LoopOk s.async.loop) (hidle : s.async.loop.frame = .idle) {events : List epoll_event}
    (hrep : Reports s.fds ready_read ready_write events) {r : Status} (hst : s.NR_async_event_wait2 (some events) = (r, s')) :
    s'.async.loop.w_q = if events = [] then [] else
      s.async.loop.q_head ++ (events.map epoll_event.fd).flatMap (readyOf s.async.loop ready_read ready_write) := by
  unfold LoopOk at hl
  rw [hidle] at hl
  rcases epoll_wait2_cases hst with ⟨hes, rfl⟩ | ⟨es, reads, hes, hne, rfl⟩
  · rw [if_pos (hes.elim (fun hes => by cases hes) Option.some.inj)]
    exact hl.1
  · cases hes
    rw [if_neg hne]
    exact collectEvents_queue hrep s.async.loop

/-- It is the batch of the select build exactly when the report covers it. -/
theorem epoll_batch_iff (hl : LoopOk s.async.loop) (h : LoopRel s.async.loop s.async.pool.recs)
    (hidle : s.async.loop.frame = .idle) {events : List epoll_event} (hrep : Reports s.fds ready_read ready_write events)
    {r : Status} (hst : s.NR_async_event_wait2 (some events) = (r, s')) :
    s'.async.loop.w_q = s.async.loop.q_head ++
        (List.range SOCKET_VEC_SIZE).flatMap (readyOf s.async.loop ready_read ready_write) ↔
      Covers s.async.loop ready_read ready_write events := by
  have horder := flatMap_eq_range_iff (fun i p hp => h.ready_key hp) (fun i hi => h.ready_lt hi) hrep.distinct
    (f := readyOf s.async.loop ready_read ready_write)
  rw [epoll_batch hl hidle hrep hst]
  by_cases hes : events = []
  · subst hes
    rw [List.map_nil, List.flatMap_nil] at horder
    rw [if_pos rfl, eq_comm, List.append_eq_nil_iff, eq_comm (b := []), eq_comm (a := List.flatMap ..), horder]
    constructor
    · rintro ⟨hq, hall, hsorted⟩
      exact ⟨hall, hsorted, fun _ => hq.symm⟩
    · rintro ⟨hall, hsorted, hq⟩
      exact ⟨(hq rfl).symm, hall, hsorted⟩
  · rw [if_neg hes, List.append_cancel_left_eq, horder]
    constructor
    · rintro ⟨hall, hsorted⟩
      exact ⟨hall, hsorted, fun hnil => absurd hnil hes⟩
    · rintro ⟨hall, hsorted, -⟩
      exact ⟨hall, hsorted⟩

theorem epoll_began (hl : LoopOk s.async.loop) (h : LoopRel s.async.loop s.async.pool.recs)
    (hidle : s.async.loop.frame = .idle) {events : List epoll_event} (hrep : Reports s.fds ready_read ready_write events)
    (hcov : Covers s.async.loop ready_read ready_write events) {r : Status}
    (hst : s.NR_async_event_wait2 (some events) = (r, s')) : Began s.async ready_read ready_write s'.async := by
  have hbatch := (epoll_batch_iff hl h hidle hrep hst).2 hcov
  rcases epoll_wait2_cases hst with ⟨hes, rfl⟩ | ⟨es, reads, hes, hne, rfl⟩
  · obtain rfl : events = [] := hes.elim (fun hes => by cases hes) Option.some.inj
    refine .nothing hl h hidle (fun i => ?_) (hcov.scheduled rfl)
    by_contra hi
    cases hcov.reported i hi
  · cases hes
    refine .start (fun i j => ?_) hbatch _ _
    rw [(collectEvents_spec h events).1]
    cases hp : s.async.loop.socket_vec i j with
    | none => split <;> split <;> rfl
    | some p =>
      refine if_congr ?_ rfl rfl
      rw [hrep.isset_iff]
      refine and_iff_left_of_imp fun hset => hcov.reported i (List.ne_nil_of_mem (a := p) ?_)
      exact mem_readyOf.2 ⟨j, (h.slot i j p hp).2.2.2, hset, hp⟩

end

end

end Nrappkit.Event
