import Nrappkit.Event.Loops
/-!
# Socket arguments

`NR_async_wait` and `NR_async_cancel` check the socket against the table and a
direction against its upper bound only; `NR_async_event_wait2` hands every
registered socket to `FD_SET`, whose sets have `FD_SETSIZE` bits. The
descriptors it hands over are `fd_uses`.
-/
open Lib

namespace Nrappkit.Event

/-- The number of descriptors in an `fd_set`. -/
def FD_SETSIZE : Nat := 1024

/-! ## What is handed to `FD_SET` and `FD_ISSET` -/

/-- The argument of the macro for a slot, used if the slot is occupied. -/
def fdOf (l : Loop) (sock how : Nat) : List Nat := if (l.socket_vec sock how).isSome then [sock] else []

/-- The arguments of `FD_SET`, in order. -/
def FD_SETs (l : Loop) : List Nat := (List.range SOCKET_VEC_SIZE).flatMap fun i => fdOf l i 0 ++ fdOf l i 1

/-- The arguments of `FD_ISSET` for the sockets of `is`, while their callbacks
are queued. -/
def FD_ISSETs (fd_read fd_write : List Nat) : List Nat → Loop → List Nat
  | [], _ => []
  | i :: is, l =>
    let l₁ := enqueue fd_read fd_write i 0 l
    fdOf l i 0 ++ fdOf l₁ i 1 ++ FD_ISSETs fd_read fd_write is (enqueue fd_read fd_write i 1 l₁)

/-- The descriptors that `NR_async_event_wait2` hands to the two macros. -/
def fd_uses (s : Async) (tv : Option timeval) (sel : Select) : List Nat :=
  FD_SETs s.loop ++ match maxfd s.loop with
    | none => []
    | some m =>
      if sel.r = 0 ∧ s.loop.q_head = [] ∧ tv.any (fun tv => tv.tv_sec ≠ 0 ∨ tv.tv_usec ≠ 0) then []
      else if sel.r < 0 ∧ ¬ sel.eintr then []
      else if sel.r > 0 then FD_ISSETs sel.fd_read sel.fd_write (List.range (m + 1)) s.loop
      else []

/-! ## What is claimed -/

/-- The call is refused and changes nothing, or it touches one slot of the
table. -/
def TouchesSlot (s : Async) (sock how : Int) (res : Option (Status × Async)) : Prop :=
  res = some (.R_BAD_ARGS, s) ∨ ∃ i j r s', sock = (i : Nat) ∧ how = (j : Nat) ∧ i < SOCKET_VEC_SIZE ∧ j < ASYNC_WAIT_TYPES ∧
    res = some (r, s') ∧ ∀ i' j', (i', j') ≠ (i, j) → s'.loop.socket_vec i' j' = s.loop.socket_vec i' j'

def CallOk (s : Async) (op : Op) : Prop :=
  match op with
  | .wait sock how _ _ | .cancel sock how => TouchesSlot s sock how (step s op)
  | .schedule _ _ | .event_wait2 _ _ | .loop | .timer_set _ _ _ | .timer_cancel _ | .update_time _ | .timer => True

/-- Whatever `select` reports, the descriptors fit into an `fd_set`. -/
def SelectOk (s : Async) : Prop := ∀ tv sel, ∀ fd ∈ fd_uses s tv sel, fd < FD_SETSIZE

/-- Every state of the run is one from which the loop can be built, and every
call in it touches its slot only. -/
def Validated : Async → List Op → Prop
  | s, [] => SelectOk s
  | s, op :: ops => SelectOk s ∧ CallOk s op ∧ ∀ r s', step s op = some (r, s') → Validated s' ops

/-- The socket and the upper bound of the direction pass the checks. -/
def Accepted (sock how : Int) : Prop := 0 ≤ sock ∧ sock < SOCKET_VEC_SIZE ∧ how < ASYNC_WAIT_TYPES

/-- A call that is accepted has a direction that is not negative, and waits for
a descriptor of an `fd_set`. -/
def ArgsOk : Op → Prop
  | .wait sock how _ _ => Accepted sock how → 0 ≤ how ∧ sock < FD_SETSIZE
  | .cancel sock how => Accepted sock how → 0 ≤ how
  | .schedule _ _ | .event_wait2 _ _ | .loop | .timer_set _ _ _ | .timer_cancel _ | .update_time _ | .timer => True

/-- The direction of a call that is accepted is not negative. -/
def HowOk : Op → Prop
  | .wait sock how _ _ | .cancel sock how => Accepted sock how → 0 ≤ how
  | .schedule _ _ | .event_wait2 _ _ | .loop | .timer_set _ _ _ | .timer_cancel _ | .update_time _ | .timer => True

/-- The condition holds of the calls of a run. -/
def Along (P : Op → Prop) : Async → List Op → Prop
  | _, [] => True
  | s, op :: ops => P op ∧ ∀ r s', step s op = some (r, s') → Along P s' ops

/-! ## The calls -/

theorem slotOf_cases (sock how : Int) :
    (¬ Accepted sock how ∧ slotOf sock how = some (.error .R_BAD_ARGS)) ∨
      (Accepted sock how ∧ how < 0 ∧ slotOf sock how = none) ∨
      ∃ i j, sock = (i : Nat) ∧ how = (j : Nat) ∧ i < SOCKET_VEC_SIZE ∧ j < ASYNC_WAIT_TYPES ∧
        slotOf sock how = some (.ok (i, j)) := by
  unfold slotOf Accepted
  by_cases h1 : sock < 0
  · exact .inl ⟨by omega, by rw [if_pos h1]⟩
  by_cases h2 : sock ≥ SOCKET_VEC_SIZE
  · exact .inl ⟨by omega, by rw [if_neg h1, if_pos h2]⟩
  by_cases h3 : how ≥ ASYNC_WAIT_TYPES
  · exact .inl ⟨by omega, by rw [if_neg h1, if_neg h2, if_pos h3]⟩
  by_cases h4 : how < 0
  · exact .inr (.inl ⟨by omega, h4, by rw [if_neg h1, if_neg h2, if_neg h3, if_pos h4]⟩)
  · exact .inr (.inr ⟨sock.toNat, how.toNat, by omega, by omega, by omega, by omega,
      by rw [if_neg h1, if_neg h2, if_neg h3, if_neg h4]⟩)

/-- A wait that is accepted leaves its slot occupied. -/
theorem wait_slot {s : Async} {i j : Nat} {sock how : Int} (cb cb_arg : UInt64)
    (h : slotOf sock how = some (.ok (i, j))) :
    ∃ s', NR_async_wait s sock how cb cb_arg = some (.ok, s') ∧ (s'.loop.socket_vec i j).isSome ∧
      ∀ i' j', (i', j') ≠ (i, j) → s'.loop.socket_vec i' j' = s.loop.socket_vec i' j' := by
  refine ⟨_, by rw [NR_async_wait, h], ?_, fun i' j' hne => ?_⟩
  · show (((clearSlot s i j).loop.setSlot i j _).socket_vec i j).isSome
    rw [setSlot_eq, if_pos ⟨rfl, rfl⟩]
    rfl
  · show ((clearSlot s i j).loop.setSlot i j _).socket_vec i' j' = _
    rw [setSlot_eq, if_neg fun h => hne (by rw [h.1, h.2]), clearSlot_slot, if_neg fun h => hne (by rw [h.1, h.2])]

theorem cancel_slot {s : Async} {i j : Nat} {sock how : Int} (h : slotOf sock how = some (.ok (i, j))) :
    ∃ s', NR_async_cancel s sock how = some (.ok, s') ∧
      ∀ i' j', (i', j') ≠ (i, j) → s'.loop.socket_vec i' j' = s.loop.socket_vec i' j' := by
  refine ⟨_, by rw [NR_async_cancel, h], fun i' j' hne => ?_⟩
  show (clearSlot s i j).loop.socket_vec i' j' = _
  rw [clearSlot_slot, if_neg fun h => hne (by rw [h.1, h.2])]

/-- A call does what it should if and only if it does not index with a negative
direction. -/
theorem callOk_iff (s : Async) (op : Op) : CallOk s op ↔ HowOk op := by
  have hrefused : ∀ {sock how : Int} {res : Option (Status × Async)}, slotOf sock how = none → res = none →
      ¬ TouchesSlot s sock how res := by
    rintro sock how res hslot rfl (h | ⟨i, j, r, s', -, -, -, -, h, -⟩) <;> cases h
  cases op with
  | wait sock how cb cb_arg =>
    show TouchesSlot s sock how (NR_async_wait s sock how cb cb_arg) ↔ _
    rcases slotOf_cases sock how with ⟨hno, hslot⟩ | ⟨hacc, hneg, hslot⟩ | ⟨i, j, hi, hj, hin, hjn, hslot⟩
    · refine iff_of_true (.inl (by rw [NR_async_wait, hslot])) fun hacc => absurd hacc hno
    · refine iff_of_false (hrefused hslot (by rw [NR_async_wait, hslot])) fun h => ?_
      exact absurd (h hacc) (Int.not_le.2 hneg)
    · obtain ⟨s', hst, -, hother⟩ := wait_slot (s := s) cb cb_arg hslot
      exact iff_of_true (.inr ⟨i, j, .ok, s', hi, hj, hin, hjn, hst, hother⟩) fun _ => by omega
  | cancel sock how =>
    show TouchesSlot s sock how (NR_async_cancel s sock how) ↔ _
    rcases slotOf_cases sock how with ⟨hno, hslot⟩ | ⟨hacc, hneg, hslot⟩ | ⟨i, j, hi, hj, hin, hjn, hslot⟩
    · refine iff_of_true (.inl (by rw [NR_async_cancel, hslot])) fun hacc => absurd hacc hno
    · refine iff_of_false (hrefused hslot (by rw [NR_async_cancel, hslot])) fun h => ?_
      exact absurd (h hacc) (Int.not_le.2 hneg)
    · obtain ⟨s', hst, hother⟩ := cancel_slot (s := s) hslot
      exact iff_of_true (.inr ⟨i, j, .ok, s', hi, hj, hin, hjn, hst, hother⟩) fun _ => by omega
  | _ => exact Iff.rfl

/-! ## The descriptors -/

theorem mem_fdOf {l : Loop} {i j fd : Nat} : fd ∈ fdOf l i j ↔ fd = i ∧ (l.socket_vec i j).isSome = true := by
  unfold fdOf
  split
  · rename_i h
    rw [List.mem_singleton]
    exact ⟨fun hfd => ⟨hfd, h⟩, fun hfd => hfd.1⟩
  · rename_i h
    exact ⟨fun hmem => absurd hmem List.not_mem_nil, fun hfd => absurd hfd.2 h⟩

theorem mem_FD_SETs {l : Loop} {fd : Nat} :
    fd ∈ FD_SETs l ↔ fd < SOCKET_VEC_SIZE ∧ ∃ j < ASYNC_WAIT_TYPES, (l.socket_vec fd j).isSome = true := by
  simp only [FD_SETs, List.mem_flatMap, List.mem_range, List.mem_append, mem_fdOf]
  constructor
  · rintro ⟨i, hi, ⟨rfl, hs⟩ | ⟨rfl, hs⟩⟩
    · exact ⟨hi, 0, by decide, hs⟩
    · exact ⟨hi, 1, by decide, hs⟩
  · rintro ⟨hi, j, hj, hs⟩
    rcases (show j = 0 ∨ j = 1 by unfold ASYNC_WAIT_TYPES at hj; omega) with rfl | rfl
    · exact ⟨fd, hi, .inl ⟨rfl, hs⟩⟩
    · exact ⟨fd, hi, .inr ⟨rfl, hs⟩⟩

/-- Queueing a callback fills no slot. -/
theorem enqueue_isSome {fd_read fd_write : List Nat} {i j i' j' : Nat} {l : Loop}
    (h : ((enqueue fd_read fd_write i j l).socket_vec i' j').isSome = true) : (l.socket_vec i' j').isSome = true := by
  rw [enqueue_slot] at h
  split at h
  · cases h
  · exact h

/-- `FD_ISSET` is asked about registered sockets only. -/
theorem mem_FD_ISSETs {fd_read fd_write : List Nat} {is : List Nat} {l : Loop} {fd : Nat}
    (h : fd ∈ FD_ISSETs fd_read fd_write is l) :
    fd ∈ is ∧ ∃ j < ASYNC_WAIT_TYPES, (l.socket_vec fd j).isSome = true := by
  induction is generalizing l with
  | nil => cases h
  | cons i is ih =>
    rw [FD_ISSETs, List.mem_append, List.mem_append, mem_fdOf, mem_fdOf] at h
    rcases h with (⟨rfl, hs⟩ | ⟨rfl, hs⟩) | h
    · exact ⟨List.mem_cons_self .., 0, by decide, hs⟩
    · exact ⟨List.mem_cons_self .., 1, by decide, enqueue_isSome hs⟩
    · obtain ⟨hmem, j, hj, hs⟩ := ih h
      exact ⟨List.mem_cons_of_mem _ hmem, j, hj, enqueue_isSome (enqueue_isSome hs)⟩

/-- The registered sockets fit into an `fd_set`. -/
def SocketsBelow (l : Loop) : Prop :=
  ∀ i < SOCKET_VEC_SIZE, ∀ j < ASYNC_WAIT_TYPES, (l.socket_vec i j).isSome = true → i < FD_SETSIZE

theorem maxfd_lt {l : Loop} {m : Nat} (h : maxfd l = some m) : m < SOCKET_VEC_SIZE := by
  have hall : ∀ n, (List.range n).foldl (fun m i => if (l.socket_vec i 0).isSome ∨ (l.socket_vec i 1).isSome then some i
      else m) none = some m → m < n := by
    intro n
    induction n with
    | zero => exact fun hm => by cases hm
    | succ n ih =>
      intro hm
      rw [List.range_succ, List.foldl_append, List.foldl_cons, List.foldl_nil] at hm
      split at hm
      · cases hm
        exact Nat.lt_succ_self _
      · exact Nat.lt_succ_of_lt (ih hm)
  exact hall SOCKET_VEC_SIZE h

theorem selectOk_iff (s : Async) : SelectOk s ↔ SocketsBelow s.loop := by
  constructor
  · intro h i hi j hj hs
    exact h none ⟨0, [], [], false⟩ i (List.mem_append_left _ (mem_FD_SETs.2 ⟨hi, j, hj, hs⟩))
  · intro h tv sel fd hfd
    rcases List.mem_append.1 hfd with hfd | hfd
    · obtain ⟨hi, j, hj, hs⟩ := mem_FD_SETs.1 hfd
      exact h fd hi j hj hs
    · split at hfd
      · cases hfd
      · rename_i m hm
        split at hfd
        · cases hfd
        split at hfd
        · cases hfd
        split at hfd
        · obtain ⟨hmem, j, hj, hs⟩ := mem_FD_ISSETs hfd
          have hlt := maxfd_lt hm
          rw [List.mem_range] at hmem
          exact h fd (by omega) j hj hs
        · cases hfd

/-! ## Every run -/

theorem loop_step_slots {s s' : Async} {r : Status} (hst : loop_step s = some (r, s')) :
    s'.loop.socket_vec = s.loop.socket_vec := by
  unfold loop_step at hst
  split at hst
  · cases hst
  · cases hst
    rfl
  · dsimp only at hst
    split at hst <;> cases hst <;> rfl
  · cases hst
    rfl
  · cases hst

theorem timer_cancel_slots {s s' : Async} {p : Ptr} {r : Status} (hst : NR_async_timer_cancel s p = some (r, s')) :
    s'.loop.socket_vec = s.loop.socket_vec := by
  unfold NR_async_timer_cancel at hst
  dsimp only at hst
  split at hst
  · cases hst
    rfl
  split at hst
  · cases hst
  · split at hst <;> cases hst <;> rfl

/-- Only a wait fills a slot. -/
theorem step_isSome {s s' : Async} {op : Op} {r : Status} (hst : step s op = some (r, s')) {i j : Nat}
    (h : (s'.loop.socket_vec i j).isSome = true) :
    (s.loop.socket_vec i j).isSome = true ∨ ∃ sock how cb cb_arg, op = .wait sock how cb cb_arg ∧
      slotOf sock how = some (.ok (i, j)) := by
  cases op with
  | wait sock how cb cb_arg =>
    have hwait : NR_async_wait s sock how cb cb_arg = some (r, s') := hst
    rcases slotOf_cases sock how with ⟨-, hslot⟩ | ⟨-, -, hslot⟩ | ⟨i', j', -, -, -, -, hslot⟩
    · rw [NR_async_wait, hslot] at hwait
      cases hwait
      exact .inl h
    · rw [NR_async_wait, hslot] at hwait
      cases hwait
    · obtain ⟨s₁, hst₁, -, hother⟩ := wait_slot (s := s) cb cb_arg hslot
      rw [hst₁] at hwait
      cases hwait
      by_cases hij : (i, j) = (i', j')
      · cases hij
        exact .inr ⟨sock, how, cb, cb_arg, rfl, hslot⟩
      · rw [hother i j hij] at h
        exact .inl h
  | cancel sock how =>
    have hcancel : NR_async_cancel s sock how = some (r, s') := hst
    rcases cancel_cases hcancel with rfl | ⟨i', j', -, -, ⟨-, rfl⟩ | ⟨c, -, rfl⟩⟩
    · exact .inl h
    · have hs : ((clearSlot s i' j').loop.socket_vec i j).isSome = true := h
      rw [clearSlot_slot] at hs
      split at hs
      · cases hs
      · exact .inl hs
    · have hs : ((clearSlot s i' j').loop.socket_vec i j).isSome = true := h
      rw [clearSlot_slot] at hs
      split at hs
      · cases hs
      · exact .inl hs
  | schedule cb cb_arg =>
    obtain ⟨p, pool', -, rfl⟩ := schedule_cases hst
    exact .inl h
  | event_wait2 tv sel =>
    rcases event_wait2_cases (Option.some.inj hst) with rfl | rfl | ⟨m, -, rfl⟩
    · exact .inl h
    · exact .inl h
    · have hs : ((collect sel.fd_read sel.fd_write (m + 1) s.loop).socket_vec i j).isSome = true := h
      rw [(collect_spec sel.fd_read sel.fd_write (m + 1) s.loop).1] at hs
      split at hs
      · cases hs
      · exact .inl hs
  | loop =>
    rw [loop_step_slots hst] at h
    exact .inl h
  | timer_set delay_ms cb cb_arg =>
    obtain ⟨due, p, pool', -, -, rfl⟩ := timer_set_cases hst
    exact .inl h
  | timer_cancel handle =>
    rw [timer_cancel_slots hst] at h
    exact .inl h
  | update_time tv =>
    rcases update_time_cases (Option.some.inj hst) with rfl | rfl | ⟨c, -, ⟨-, rfl⟩ | ⟨-, rfl⟩⟩ <;> exact .inl h
  | timer =>
    rw [(timer_step_cases hst).1] at h
    exact .inl h

/-- A call that meets the condition keeps the registered sockets in the range
of an `fd_set`. -/
theorem socketsBelow_step {s s' : Async} {op : Op} {r : Status} (h : SocketsBelow s.loop) (hargs : ArgsOk op)
    (hst : step s op = some (r, s')) : SocketsBelow s'.loop := by
  intro i hi j hj hs
  rcases step_isSome hst hs with hold | ⟨sock, how, cb, cb_arg, rfl, hslot⟩
  · exact h i hi j hj hold
  · obtain ⟨rfl, rfl, -, -⟩ := slotOf_ok hslot
    have hacc : Accepted (i : Nat) (j : Nat) := ⟨by omega, by omega, by omega⟩
    have hlt := (hargs hacc).2
    omega

/-- A wait that does not meet it is undefined, or leaves a socket that is not
in the range. -/
theorem argsOk_of_step {s : Async} {op : Op} (hcall : CallOk s op)
    (hnext : ∀ r s', step s op = some (r, s') → SocketsBelow s'.loop) : ArgsOk op := by
  rw [callOk_iff] at hcall
  cases op with
  | wait sock how cb cb_arg =>
    intro hacc
    refine ⟨hcall hacc, ?_⟩
    rcases slotOf_cases sock how with ⟨hno, -⟩ | ⟨-, hneg, -⟩ | ⟨i, j, rfl, rfl, hi, hj, hslot⟩
    · exact absurd hacc hno
    · exact absurd (hcall hacc) (Int.not_le.2 hneg)
    · obtain ⟨s', hst, hself, -⟩ := wait_slot (s := s) cb cb_arg hslot
      have hlt := hnext _ _ hst i hi j hj hself
      omega
  | cancel sock how => exact hcall
  | schedule cb cb_arg => trivial
  | event_wait2 tv sel => trivial
  | loop => trivial
  | timer_set delay_ms cb cb_arg => trivial
  | timer_cancel handle => trivial
  | update_time tv => trivial
  | timer => trivial

theorem ArgsOk.how {op : Op} (h : ArgsOk op) : HowOk op := by
  cases op with
  | wait sock how cb cb_arg => exact fun hacc => (h hacc).1
  | cancel sock how => exact h
  | _ => trivial

theorem validated_iff {s : Async} (h : SocketsBelow s.loop) (ops : List Op) : Validated s ops ↔ Along ArgsOk s ops := by
  induction ops generalizing s with
  | nil => exact iff_of_true ((selectOk_iff s).2 h) trivial
  | cons op ops ih =>
    constructor
    · rintro ⟨-, hcall, hrest⟩
      have hargs : ArgsOk op := by
        refine argsOk_of_step hcall fun r s' hst => (selectOk_iff s').1 ?_
        have hv := hrest r s' hst
        cases ops with
        | nil => exact hv
        | cons op' ops => exact hv.1
      exact ⟨hargs, fun r s' hst => (ih (socketsBelow_step h hargs hst)).1 (hrest r s' hst)⟩
    · rintro ⟨hargs, hrest⟩
      exact ⟨(selectOk_iff s).2 h, (callOk_iff s op).2 hargs.how,
        fun r s' hst => (ih (socketsBelow_step h hargs hst)).2 (hrest r s' hst)⟩

/-- Whatever the calls, and in whatever order: socket arguments are validated
if and only if no call that is accepted has a negative direction and no wait
that is accepted is for a socket an `fd_set` has no bit for. -/
theorem sockets_validated_iff (ops : List Op) : Validated initial ops ↔ Along ArgsOk initial ops :=
  validated_iff (fun i hi j hj hs => by cases hs) ops

/-- A wait for the write direction of the socket below, and a wait for a socket
that no `fd_set` holds. -/
theorem not_validated : ¬ Validated initial [.wait 1 (-1) 7 0] ∧ ¬ Validated initial [.wait 5000 0 7 0] := by
  rw [validated_iff (fun i hi j hj hs => by cases hs), validated_iff (fun i hi j hj hs => by cases hs)]
  constructor
  · rintro ⟨hargs, -⟩
    exact absurd (hargs ⟨by decide, by decide, by decide⟩).1 (by decide)
  · rintro ⟨hargs, -⟩
    exact absurd (hargs ⟨by decide, by decide, by decide⟩).2 (by decide)

end Nrappkit.Event
