import Nrappkit.Lib.Broadcast
import Nrappkit.Registry.LocalEvents
import Nrappkit.Registry.Relay
import Nrappkit.Service.Store
/-!
# The daemon and its clients

`registryd.c`: the registry in the daemon, a callback on its root that writes
every event to every client, and the clients at the other end, which read what
arrives in pieces of any size. Requests, writes that fail and reads come in any
order.

A connection is known by its number, not by its descriptor. What a write returns
is a parameter: a failure, or how many bytes of the buffer it carries. The
sockets of the daemon block, so that is all of them, unless a signal cuts the
write short. A client that loses its connection registers again, for a new one.
-/
open Lib Nrappkit.Registry Nrappkit.Assoc

namespace Nrappkit.Service

abbrev Conn := Nat

/-- The address of `nr_reg_send_event`. -/
def nr_reg_send_event_cb : UInt64 := 1

structure Daemon where
  reg : Reg
  /-- The clients, and the buffers written to each connection. -/
  nr_reg_client_list : Broadcast Conn Bytes
  /-- The number of connections that were made. -/
  opened : Nat

/-- Register a callback on the root for the actions, one by one. -/
def register_all : List UInt8 → Reg → Option (Status × Reg)
  | [], s => some (.ok, s)
  | action :: actions, s =>
    match NR_reg_register_callback s.cbs [] action nr_reg_send_event_cb 0 with
    | none => none
    | some (.ok, cbs) => register_all actions { s with cbs }
    | some (r, cbs) => some (r, { s with cbs })

/-- The daemon when it starts to serve. -/
def nr_registry_server : Option (Status × Daemon) :=
  match nr_reg_local_init idle with
  | none => none
  | some (.ok, s) =>
    (register_all [NR_REG_CB_ACTION_ADD, NR_REG_CB_ACTION_CHANGE, NR_REG_CB_ACTION_DELETE, NR_REG_CB_ACTION_FINAL] s).map
      fun x => (x.1, { reg := x.2, nr_reg_client_list := ⟨[], fun _ => []⟩, opened := 0 })
  | some (r, s) => some (r, { reg := s, nr_reg_client_list := ⟨[], fun _ => []⟩, opened := 0 })

section
variable (NR_SOCKET_WRITE : Conn → List Bytes → Bytes → Option Nat)

/-- The bytes of a buffer that a write carries. -/
def written (fd : Conn) (log : List Bytes) (buffer : Bytes) : Option Bytes :=
  (NR_SOCKET_WRITE fd log buffer).map buffer.take

/-- A client that cannot be written to is removed; one that was written a part of
the buffer stays. -/
def nr_reg_send_to_clients (d : Daemon) (buffer : Bytes) : Daemon :=
  { d with nr_reg_client_list := d.nr_reg_client_list.send (written NR_SOCKET_WRITE) buffer }

/-- The callback runs for each invocation. -/
def relay (d : Daemon) (calls : List Invocation) : Daemon :=
  calls.foldl (fun d c => nr_reg_send_to_clients NR_SOCKET_WRITE d (nr_reg_send_event c.action c.name)) d

/-- `connects` says whether the connection to the client can be made. -/
def nr_reg_register_for_callbacks (d : Daemon) (connects : Bool) : Status × Daemon :=
  let d := nr_reg_send_to_clients NR_SOCKET_WRITE d nr_reg_cleanup_dead_clients
  if connects then
    (.ok, { d with nr_reg_client_list := d.nr_reg_client_list.join d.opened, opened := d.opened + 1 })
  else (.R_FAILED, d)

/-! ## The daemon with its clients -/

structure System where
  daemon : Daemon
  /-- How many bytes the client of a connection has read. -/
  taken : Conn → Nat
  client : Conn → Client

/-- The bytes written to a connection. -/
def System.sent (sys : System) (fd : Conn) : Bytes := (sys.daemon.nr_reg_client_list.log fd).flatten

inductive Action where
  | call (c : Call)
  | register_for_callbacks (connects : Bool)
  /-- The client of a connection reads at most `n` bytes. -/
  | read (fd : Conn) (n : Nat)

inductive Outcome where
  | answer (a : Answer)
  | status (r : Status)
  | none

def act (sys : System) : Action → Option (Outcome × System)
  | .call c => (call sys.daemon.reg c).map fun x =>
    (.answer x.1, { sys with
      daemon := relay NR_SOCKET_WRITE { sys.daemon with reg := x.2 } (announced idle sys.daemon.reg x.2) })
  | .register_for_callbacks connects =>
    let x := nr_reg_register_for_callbacks NR_SOCKET_WRITE sys.daemon connects
    some (.status x.1, { sys with daemon := x.2 })
  | .read fd n =>
    let piece := ((sys.sent fd).drop (sys.taken fd)).take n
    some (.none, { sys with
      taken := Function.update sys.taken fd (sys.taken fd + piece.length)
      client := Function.update sys.client fd (nr_reg_cb_async_wait_cb (sys.client fd) piece) })

end

/-- The last event of a key is for a valid name. -/
def Announceable : Call → Prop
  | .fin name => nr_reg_is_valid name = .ok
  | _ => True

/-- A setter strands no node, only valid names are announced, and a client
reads when there is something to read. -/
def Allowed (sys : System) : Action → Prop
  | .call c => Proper sys.daemon.reg c ∧ Announceable c
  | .register_for_callbacks _ => True
  | .read fd n => 0 < n ∧ sys.taken fd < (sys.sent fd).length

/-- The daemon has just started, without clients. -/
structure System.Started (sys : System) : Prop where
  daemon : nr_registry_server = some (.ok, sys.daemon)
  taken : ∀ fd, sys.taken fd = 0
  client : ∀ fd, sys.client fd = { buf := [], raised := [] }

/-! ## The callback table of the daemon -/

/-- The callback on the root and nothing else. -/
structure Relaying (cbs : Cbs) : Prop where
  inv : CInv cbs
  regs : ∀ n a c, cbs.regs n a c = if n = [] ∧ a ∈ CB_ACTIONS ∧ c = nr_reg_send_event_cb then some 0 else none

theorem Relaying.entries (h : Relaying cbs) : cbs.nr_registry_callbacks.entries < 2 ^ 31 := by
  have hle : cbs.nr_registry_callbacks.entries ≤ ([[]] : List Bytes).length := h.inv.entries_le fun n a c arg hreg => by
    rw [h.regs] at hreg
    split at hreg
    · rename_i hc
      simp [hc.1]
    · cases hreg
  exact Nat.lt_of_le_of_lt hle (by decide)

/-- Every event calls it once. -/
theorem Relaying.callsOf (h : Relaying cbs) (name : Bytes) {action : UInt8} (ha : action ∈ CB_ACTIONS) :
    Registry.callsOf cbs name action = [⟨[], nr_reg_send_event_cb, 0, action, name⟩] := by
  have hmem : ∀ c, c ∈ Registry.callsOf cbs name action ↔ c = ⟨[], nr_reg_send_event_cb, 0, action, name⟩ := by
    intro c
    rw [h.inv.mem_callsOf, h.regs]
    obtain ⟨key, cb, cb_arg, act, n⟩ := c
    constructor
    · rintro ⟨-, hn, hact, hreg⟩
      dsimp only at hn hact hreg
      split at hreg
      · rename_i hc
        obtain ⟨rfl, -, rfl⟩ := hc
        cases hreg
        rw [hn, hact]
      · cases hreg
    · intro hc
      cases hc
      exact ⟨.inr (.inr rfl), rfl, rfl, if_pos ⟨rfl, ha, rfl⟩⟩
  have hnodup : (Registry.callsOf cbs name action).Nodup := .of_map _ (h.inv.callsOf_nodup name action)
  exact List.perm_singleton.1 ((List.perm_ext_iff_of_nodup hnodup (List.nodup_singleton _)).2 fun c => by
    rw [hmem, List.mem_singleton])

/-! ## What a call announces -/

/-- The message for an event. -/
def messageOf (e : Bytes × UInt8) : Message := .event e.2 e.1

section
variable {s s' : Reg} {a : Store}

/-- What a call tells an observer of the registry: it raises events for valid
names, which lead from the stored names to those behind the call. -/
structure Reports (s s' : Reg) (new : List (Bytes × UInt8)) : Prop where
  events : s'.events = s.events ++ new
  ok : ∀ e ∈ new, (messageOf e).Ok
  legal : Legal s.keys new
  keys : replay s.keys new = s'.keys

theorem Reports.same (hev : s'.events = s.events) (hk : s'.keys = s.keys) : Reports s s' [] :=
  ⟨by simp [hev], by simp, trivial, hk.symm⟩

/-- The events of `Raises` are those of the record. -/
theorem new_valid (h : Raises idle s s') {new : List (Bytes × UInt8)} (hev : s'.events = s.events ++ new) :
    ∀ e ∈ new, nr_reg_is_valid e.1 = .ok := by
  obtain ⟨new', calls, hev', -, hv⟩ := h
  obtain rfl : new = new' := List.append_cancel_left (hev.symm.trans hev')
  exact hv

theorem set_reports (h : Sound s) {name : Bytes} {arg : Arg} (hs : strands s name = false) {r : Status}
    (hst : Registry.set idle s name arg = some (r, s')) : ∃ new, Reports s s' new := by
  have hraises := set_raises hst
  rcases set_cases h.1 hs hst with ⟨-, rfl⟩ | ⟨p, node, hp, hn, htype, -, -, hmap, hev⟩ | ⟨hp, -, hpf, -, -, hc⟩
  · exact ⟨[], .same rfl rfl⟩
  · have ht := Tells.overwritten (by simp [Reg.map, hp, hn]) htype hmap hev
    refine ⟨_, ht.events, fun e he => ⟨?_, new_valid hraises ht.events e he⟩, ht.legal, ht.keys⟩
    split at he
    · rw [List.mem_singleton.1 he]
      exact (by decide : NR_REG_CB_ACTION_CHANGE ∈ CB_ACTIONS)
    · cases he
  · have ht := Tells.created h.2 hp hpf hc arg
    refine ⟨_, ht.events, fun e he => ⟨?_, new_valid hraises ht.events e he⟩, ht.legal, ht.keys⟩
    have hadd : e.2 = NR_REG_CB_ACTION_ADD := by
      rcases List.mem_append.1 he with he | he
      · obtain ⟨n, -, rfl⟩ := List.mem_map.1 he
        rfl
      · rw [List.mem_singleton.1 he]
    rw [hadd]
    decide

theorem del_reports (h : RInv s) {name : Bytes} {r : Status} (hst : nr_reg_local_del idle s name = some (r, s')) :
    ∃ new, Reports s s' new := by
  by_cases hv : nr_reg_is_valid name = .ok
  · obtain ⟨-, -, hmap, hev⟩ := del_spec h hv hst
    have ht := Tells.deleted hmap hev
    refine ⟨_, ht.events, fun e he => ⟨?_, new_valid (del_raises hst) ht.events e he⟩, ht.legal, ht.keys⟩
    rcases List.mem_cons.1 he with rfl | he
    · exact (by decide : NR_REG_CB_ACTION_DELETE ∈ CB_ACTIONS)
    · split at he
      · rw [List.mem_singleton.1 he]
        exact (by decide : NR_REG_CB_ACTION_ADD ∈ CB_ACTIONS)
      · cases he
  · rw [del_bad_name hv] at hst
    cases hst
    exact ⟨[], .same rfl rfl⟩

theorem fin_reports {name : Bytes} (hv : nr_reg_is_valid name = .ok) {r : Status}
    (hst : nr_reg_local_fin idle s name = some (r, s')) : ∃ new, Reports s s' new := by
  obtain ⟨-, hsame, hev⟩ := raise_event_spec (by decide) hst
  have hfinal : NR_REG_CB_ACTION_FINAL ≠ NR_REG_CB_ACTION_ADD ∧ NR_REG_CB_ACTION_FINAL ≠ NR_REG_CB_ACTION_CHANGE ∧
      NR_REG_CB_ACTION_FINAL ≠ NR_REG_CB_ACTION_DELETE := by decide
  refine ⟨_, hev, ?_, ⟨⟨fun he => absurd he hfinal.1, fun he => absurd he hfinal.2.1⟩, trivial⟩, ?_⟩
  · intro e he
    rw [List.mem_singleton.1 he]
    exact ⟨(by decide : NR_REG_CB_ACTION_FINAL ∈ CB_ACTIONS), hv⟩
  · show replayOne s.keys (name, NR_REG_CB_ACTION_FINAL) = s'.keys
    rw [replayOne, if_neg hfinal.1, if_neg hfinal.2.2, Reg.keys, Reg.keys, hsame.map]

/-- A call either changes nothing or raises its events for the callbacks. -/
theorem call_raises {c : Call} {ans : Answer} (hst : call s c = some (ans, s')) :
    s' = s ∨ ∃ new calls, s'.events = s.events ++ new ∧ delivers idle new s.cbs = some (s'.cbs, calls) := by
  cases c with
  | set name arg =>
    obtain ⟨⟨r, s₁⟩, hset, heq⟩ := Option.map_eq_some_iff.1 hst
    cases heq
    obtain ⟨new, calls, hev, hd, -⟩ := set_raises hset
    exact .inr ⟨new, calls, hev, hd⟩
  | del name =>
    obtain ⟨⟨r, s₁⟩, hdel, heq⟩ := Option.map_eq_some_iff.1 hst
    cases heq
    obtain ⟨new, calls, hev, hd, -⟩ := del_raises hdel
    exact .inr ⟨new, calls, hev, hd⟩
  | fin name =>
    obtain ⟨⟨r, s₁⟩, hfin, heq⟩ := Option.map_eq_some_iff.1 hst
    cases heq
    obtain ⟨calls, hev, hd⟩ := raise_event_delivers hfin
    exact .inr ⟨_, calls, hev, hd⟩
  | _ =>
    obtain ⟨r, -, heq⟩ := Option.map_eq_some_iff.1 hst
    cases heq
    exact .inl rfl

theorem call_reports (h : Sound s) {c : Call} (hp : Proper s c) (hfin : Announceable c) {ans : Answer}
    (hst : call s c = some (ans, s')) : ∃ new, Reports s s' new := by
  cases c with
  | set name arg =>
    obtain ⟨⟨r, s₁⟩, hset, heq⟩ := Option.map_eq_some_iff.1 hst
    cases heq
    exact set_reports h hp hset
  | del name =>
    obtain ⟨⟨r, s₁⟩, hdel, heq⟩ := Option.map_eq_some_iff.1 hst
    cases heq
    exact del_reports h.1 hdel
  | fin name =>
    obtain ⟨⟨r, s₁⟩, hfin', heq⟩ := Option.map_eq_some_iff.1 hst
    cases heq
    exact fin_reports hfin hfin'
  | _ =>
    obtain ⟨r, -, heq⟩ := Option.map_eq_some_iff.1 hst
    cases heq
    exact ⟨[], .same rfl rfl⟩

/-- In the daemon, each event makes one call of the callback on the root. -/
theorem Relaying.announced (h : Relaying s.cbs) {c : Call} {ans : Answer} (hst : call s c = some (ans, s'))
    {new : List (Bytes × UInt8)} (hr : Reports s s' new) :
    s'.cbs = s.cbs ∧ Registry.announced idle s s' =
      new.map fun e => ⟨[], nr_reg_send_event_cb, 0, e.2, e.1⟩ := by
  have hact : ∀ e ∈ new, e.2 ∈ CB_ACTIONS := fun e he => (hr.ok e he).1
  have hidle : delivers idle new s.cbs = some (s.cbs, new.flatMap fun e => Registry.callsOf s.cbs e.1 e.2) :=
    delivers_idle h.inv h.entries hact
  have hcalls : (new.flatMap fun e => Registry.callsOf s.cbs e.1 e.2) =
      new.map fun e => ⟨[], nr_reg_send_event_cb, 0, e.2, e.1⟩ := by
    rw [List.map_eq_flatMap]
    exact List.flatMap_congr fun e he => h.callsOf e.1 (hact e he)
  have hcbs : s'.cbs = s.cbs := by
    rcases call_raises hst with rfl | ⟨new', calls, hev, hd⟩
    · rfl
    · obtain rfl : new = new' := List.append_cancel_left (hr.events.symm.trans hev)
      rw [hidle] at hd
      exact (congrArg Prod.fst (Option.some.inj hd)).symm
  refine ⟨hcbs, ?_⟩
  rw [announced_eq hr.events (hidle.trans (by rw [hcbs])), hcalls]

end

/-! ## One action -/

/-- What holds between two actions. -/
structure System.Ok (sys : System) : Prop where
  refines : ∃ a, Refines sys.daemon.reg a
  relaying : Relaying sys.daemon.reg.cbs
  nodup : sys.daemon.nr_reg_client_list.listeners.Nodup
  below : ∀ fd ∈ sys.daemon.nr_reg_client_list.listeners, fd < sys.daemon.opened
  fresh : ∀ fd, sys.daemon.opened ≤ fd → sys.daemon.nr_reg_client_list.log fd = [] ∧ sys.taken fd = 0 ∧
    sys.client fd = { buf := [], raised := [] }

/-- A write that does not fail carries the whole buffer. -/
def Whole (NR_SOCKET_WRITE : Conn → List Bytes → Bytes → Option Nat) : Prop :=
  ∀ fd log buffer n, NR_SOCKET_WRITE fd log buffer = some n → n = buffer.length

/-- What a connection carries that was made when the registry was `s`: `news`
are the events since then, `ms` the messages. -/
structure Tracks (s : Reg) (fd : Conn) (sys : System) (news : List (Bytes × UInt8)) (ms : List Message) : Prop where
  reports : Reports s sys.daemon.reg news
  ok : ∀ m ∈ ms, m.Ok
  shown : ms.filterMap Message.event? = news.map Prod.swap
  hears : Hears sys.daemon.nr_reg_client_list (ms.map Message.bytes) fd
  opened : fd < sys.daemon.opened
  /-- The client has read its pieces from the front. -/
  client : ∃ pieces, sys.client fd = receive pieces ∧ pieces.flatten <+: sys.sent fd ∧
    sys.taken fd = pieces.flatten.length

section
variable {NR_SOCKET_WRITE : Conn → List Bytes → Bytes → Option Nat} {sys sys' : System} {s : Reg} {a : Store} {fd : Conn}
  {news : List (Bytes × UInt8)} {ms : List Message}

theorem relay_eq (d : Daemon) (calls : List Invocation) : relay NR_SOCKET_WRITE d calls = { d with
    nr_reg_client_list := (calls.map fun c => nr_reg_send_event c.action c.name).foldl
      (Broadcast.send (written NR_SOCKET_WRITE)) d.nr_reg_client_list } := by
  induction calls generalizing d with
  | nil => rfl
  | cons c calls ih =>
    show relay NR_SOCKET_WRITE (nr_reg_send_to_clients NR_SOCKET_WRITE d _) calls = _
    rw [ih]
    rfl

/-- A call changes the registry and writes a message for each of its events. -/
theorem call_effect (h : sys.Ok) {c : Call} (hok : Allowed sys (.call c)) {o : Outcome}
    (hst : act NR_SOCKET_WRITE sys (.call c) = some (o, sys')) :
    ∃ s' new, Reports sys.daemon.reg s' new ∧ (∃ a, Refines s' a) ∧ s'.cbs = sys.daemon.reg.cbs ∧
      sys' = { sys with daemon := { sys.daemon with
        reg := s'
        nr_reg_client_list := ((new.map messageOf).map Message.bytes).foldl (Broadcast.send (written NR_SOCKET_WRITE))
          sys.daemon.nr_reg_client_list } } := by
  obtain ⟨⟨ans, s'⟩, hcall, heq⟩ := Option.map_eq_some_iff.1 hst
  cases heq
  obtain ⟨a, ha⟩ := h.refines
  obtain ⟨new, hnew⟩ := call_reports ha.sound hok.1 hok.2 hcall
  obtain ⟨a', -, ha'⟩ := ha.step hok.1 hcall
  obtain ⟨hcbs, hann⟩ := h.relaying.announced hcall hnew
  refine ⟨s', new, hnew, ⟨a', ha'⟩, hcbs, ?_⟩
  dsimp only
  rw [relay_eq, hann, List.map_map, List.map_map]
  rfl

theorem act_ok (h : sys.Ok) {i : Action} (hok : Allowed sys i) {o : Outcome}
    (hst : act NR_SOCKET_WRITE sys i = some (o, sys')) : sys'.Ok := by
  cases i with
  | call c =>
    obtain ⟨s', new, -, href, hcbs, rfl⟩ := call_effect h hok hst
    obtain ⟨hn, hsub, hlog, -⟩ := Broadcast.sends_others (written NR_SOCKET_WRITE) h.nodup ((new.map messageOf).map Message.bytes)
    refine ⟨href, hcbs ▸ h.relaying, hn, fun fd hfd => h.below fd (hsub fd hfd), fun fd hfd => ?_⟩
    obtain ⟨hl, ht⟩ := h.fresh fd hfd
    exact ⟨(hlog fd fun hmem => Nat.not_lt.2 hfd (h.below fd hmem)).trans hl, ht⟩
  | register_for_callbacks connects =>
    obtain ⟨hn, hsub, hlog, -⟩ := Broadcast.send_others (written NR_SOCKET_WRITE) h.nodup nr_reg_cleanup_dead_clients
    have hfresh : ∀ fd, sys.daemon.opened ≤ fd →
        (sys.daemon.nr_reg_client_list.send (written NR_SOCKET_WRITE) nr_reg_cleanup_dead_clients).log fd = [] ∧
          sys.taken fd = 0 ∧ sys.client fd = { buf := [], raised := [] } := by
      intro fd hfd
      obtain ⟨hl, ht⟩ := h.fresh fd hfd
      exact ⟨(hlog fd fun hmem => Nat.not_lt.2 hfd (h.below fd hmem)).trans hl, ht⟩
    cases connects with
    | false =>
      cases hst
      exact ⟨h.refines, h.relaying, hn, fun fd hfd => h.below fd (hsub fd hfd), hfresh⟩
    | true =>
      cases hst
      have hnew : sys.daemon.opened ∉
          (sys.daemon.nr_reg_client_list.send (written NR_SOCKET_WRITE) nr_reg_cleanup_dead_clients).listeners := fun hmem =>
        Nat.lt_irrefl _ (h.below _ (hsub _ hmem))
      refine ⟨h.refines, h.relaying, (Hears.joined hn hnew (hfresh _ (Nat.le_refl _)).1).nodup, fun fd hfd => ?_,
        fun fd hfd => hfresh fd (Nat.le_of_succ_le hfd)⟩
      rcases List.mem_append.1 hfd with hfd | hfd
      · exact Nat.lt_succ_of_lt (h.below fd (hsub fd hfd))
      · rw [List.mem_singleton.1 hfd]
        exact Nat.lt_succ_self _
  | read fd n =>
    cases hst
    refine ⟨h.refines, h.relaying, h.nodup, h.below, fun fd' hfd' => ?_⟩
    obtain ⟨hl, ht, hc⟩ := h.fresh fd' hfd'
    -- nothing was written to a connection that was not made
    have hne : fd' ≠ fd := by
      rintro rfl
      obtain ⟨-, hlt⟩ := hok
      rw [System.sent, hl, ht] at hlt
      exact Nat.lt_irrefl _ hlt
    dsimp only
    rw [Function.update_of_ne hne, Function.update_of_ne hne]
    exact ⟨hl, ht, hc⟩

theorem act_returns (h : sys.Ok) {i : Action} (hok : Allowed sys i) :
    ∃ o sys', act NR_SOCKET_WRITE sys i = some (o, sys') := by
  cases i with
  | call c =>
    obtain ⟨a, ha⟩ := h.refines
    obtain ⟨ans, s', hcall⟩ := ha.returns hok.1
    exact ⟨_, _, by rw [act, hcall]; rfl⟩
  | register_for_callbacks connects => exact ⟨_, _, rfl⟩
  | read fd n => exact ⟨_, _, rfl⟩

/-- More is written, and nothing taken back. -/
theorem Tracks.reads (h : Tracks s fd sys news ms) (hc : sys'.client fd = sys.client fd)
    (ht : sys'.taken fd = sys.taken fd)
    (hlog : sys.daemon.nr_reg_client_list.log fd <+: sys'.daemon.nr_reg_client_list.log fd) :
    ∃ pieces, sys'.client fd = receive pieces ∧ pieces.flatten <+: sys'.sent fd ∧
      sys'.taken fd = pieces.flatten.length := by
  obtain ⟨pieces, hr, hp, hlen⟩ := h.client
  obtain ⟨more, hmore⟩ := hlog
  refine ⟨pieces, hc.trans hr, hp.trans ?_, ht.trans hlen⟩
  rw [System.sent, System.sent, ← hmore, List.flatten_append]
  exact List.prefix_append _ _

theorem Reports.trans {s₁ s₂ s₃ : Reg} {l l' : List (Bytes × UInt8)} (h : Reports s₁ s₂ l) (h' : Reports s₂ s₃ l') :
    Reports s₁ s₃ (l ++ l') where
  events := by rw [h'.events, h.events, List.append_assoc]
  ok e he := (List.mem_append.1 he).elim (h.ok e) (h'.ok e)
  legal := legal_append.2 ⟨h.legal, h.keys ▸ h'.legal⟩
  keys := by rw [replay_append, h.keys, h'.keys]

theorem events_messageOf (new : List (Bytes × UInt8)) :
    (new.map messageOf).filterMap Message.event? = new.map Prod.swap := by
  induction new with
  | nil => rfl
  | cons e new ih =>
    rw [List.map_cons, List.filterMap_cons_some (f := Message.event?) (b := e.swap) rfl, ih]
    rfl

theorem Whole.written (hw : Whole NR_SOCKET_WRITE) (fd : Conn) (log : List Bytes) (buffer sent : Bytes)
    (h : Service.written NR_SOCKET_WRITE fd log buffer = some sent) : sent = buffer := by
  obtain ⟨n, hn, rfl⟩ := Option.map_eq_some_iff.1 h
  rw [hw fd log buffer n hn, List.take_length]

theorem Tracks.step (hw : Whole NR_SOCKET_WRITE) (h : Tracks s fd sys news ms) (hs : sys.Ok) {i : Action} (hok : Allowed sys i) {o : Outcome}
    (hst : act NR_SOCKET_WRITE sys i = some (o, sys')) : ∃ news' ms', Tracks s fd sys' news' ms' := by
  cases i with
  | call c =>
    obtain ⟨s', new, hnew, -, -, rfl⟩ := call_effect hs hok hst
    obtain ⟨-, -, -, hlog⟩ := Broadcast.sends_others (written NR_SOCKET_WRITE) hs.nodup ((new.map messageOf).map Message.bytes)
    refine ⟨news ++ new, ms ++ new.map messageOf, h.reports.trans hnew, fun m hm => ?_, ?_, ?_, h.opened,
      h.reads rfl rfl (hlog fd)⟩
    · rcases List.mem_append.1 hm with hm | hm
      · exact h.ok m hm
      · obtain ⟨e, he, rfl⟩ := List.mem_map.1 hm
        exact hnew.ok e he
    · rw [List.filterMap_append, h.shown, events_messageOf, List.map_append]
    · rw [List.map_append]
      exact h.hears.sends hw.written _
  | register_for_callbacks connects =>
    obtain ⟨-, hsub, -, hlog⟩ := Broadcast.send_others (written NR_SOCKET_WRITE) hs.nodup nr_reg_cleanup_dead_clients
    have hok' : ∀ m ∈ ms ++ [Message.cleanup], m.Ok := fun m hm => by
      rcases List.mem_append.1 hm with hm | hm
      · exact h.ok m hm
      · rw [List.mem_singleton.1 hm]
        trivial
    have hshown : (ms ++ [Message.cleanup]).filterMap Message.event? = news.map Prod.swap := by
      rw [List.filterMap_append, h.shown]
      exact List.append_nil _
    have hhears : Hears (sys.daemon.nr_reg_client_list.send (written NR_SOCKET_WRITE) nr_reg_cleanup_dead_clients)
        ((ms ++ [Message.cleanup]).map Message.bytes) fd := by
      rw [List.map_append]
      exact h.hears.send hw.written _
    cases connects with
    | false =>
      cases hst
      exact ⟨news, _, h.reports, hok', hshown, hhears, h.opened, h.reads rfl rfl (hlog fd)⟩
    | true =>
      cases hst
      have hnew : sys.daemon.opened ∉
          (sys.daemon.nr_reg_client_list.send (written NR_SOCKET_WRITE) nr_reg_cleanup_dead_clients).listeners := fun hmem =>
        Nat.lt_irrefl _ (hs.below _ (hsub _ hmem))
      exact ⟨news, _, h.reports, hok', hshown, hhears.join hnew (Nat.ne_of_lt h.opened), Nat.lt_succ_of_lt h.opened,
        h.reads rfl rfl (hlog fd)⟩
  | read fd' n =>
    cases hst
    refine ⟨news, ms, h.reports, h.ok, h.shown, h.hears, h.opened, ?_⟩
    obtain ⟨pieces, hr, hp, hlen⟩ := h.client
    by_cases hfd : fd = fd'
    · subst hfd
      -- the piece continues what was read
      refine ⟨pieces ++ [((sys.sent fd).drop (sys.taken fd)).take n], ?_, ?_, ?_⟩
      · dsimp only
        rw [Function.update_self, hr, receive, receive, List.foldl_append]
        rfl
      · obtain ⟨rest, hrest⟩ := hp
        have hsent : System.sent { sys with
            taken := Function.update sys.taken fd (sys.taken fd + (((sys.sent fd).drop (sys.taken fd)).take n).length)
            client := Function.update sys.client fd (nr_reg_cb_async_wait_cb (sys.client fd)
              (((sys.sent fd).drop (sys.taken fd)).take n)) } fd = sys.sent fd := rfl
        rw [hsent, hlen, ← hrest, List.drop_left, List.flatten_append, List.flatten_singleton]
        exact (List.prefix_append_right_inj _).2 (List.take_prefix _ _)
      · dsimp only
        rw [Function.update_self, hlen, List.flatten_append, List.flatten_singleton, List.length_append]
    · refine ⟨pieces, ?_, hp, ?_⟩
      · dsimp only
        rw [Function.update_of_ne hfd, hr]
      · dsimp only
        rw [Function.update_of_ne hfd, hlen]

end

/-! ## The start -/

theorem register_all_spec {l : List UInt8} (hl : ∀ a ∈ l, a ∈ CB_ACTIONS) {s : Reg} (h : CInv s.cbs) :
    ∃ cbs, register_all l s = some (.ok, { s with cbs }) ∧ CInv cbs ∧
      ∀ n a c, cbs.regs n a c = if n = [] ∧ a ∈ l ∧ c = nr_reg_send_event_cb then some 0 else s.cbs.regs n a c := by
  induction l generalizing s with
  | nil => exact ⟨s.cbs, rfl, h, fun n a c => by simp⟩
  | cons b l ih =>
    have hbits : CB_ACTIONS.all fun a => leftover a = 0 && bits a = [a] := by decide
    have hb := List.all_eq_true.1 hbits b (hl b (by simp))
    simp only [Bool.and_eq_true, decide_eq_true_eq] at hb
    have hcb : nr_reg_send_event_cb ≠ 0 := by decide
    have hroot : nr_reg_is_valid [] = .ok := rfl
    obtain ⟨cbs₁, hreg, hinv₁, hregs₁⟩ := NR_reg_register_ok h 0 hcb hroot hb.1
    obtain ⟨cbs, hall, hinv, hregs⟩ := ih (fun a ha => hl a (by simp [ha])) (s := { s with cbs := cbs₁ }) hinv₁
    refine ⟨cbs, ?_, hinv, fun n a c => ?_⟩
    · rw [register_all, hreg]
      exact hall
    · rw [hregs, hregs₁, hb.2]
      by_cases hn : n = [] <;> by_cases hc : c = nr_reg_send_event_cb <;> by_cases hab : a = b <;>
        by_cases hal : a ∈ l <;> simp [setReg, hn, hc, hab, hal]

/-- The daemon starts, with an empty registry and its callback. -/
theorem server_starts : ∃ d, nr_registry_server = some (.ok, d) ∧ Refines d.reg Hierarchy.empty ∧ Relaying d.reg.cbs ∧
    d.nr_reg_client_list = ⟨[], fun _ => []⟩ ∧ d.opened = 0 := by
  obtain ⟨s₀, hi, hcbs⟩ := init_returns
  have hi : nr_reg_local_init idle = some (.ok, s₀) := hi
  have href := init_refines hi
  have hperm : [NR_REG_CB_ACTION_ADD, NR_REG_CB_ACTION_CHANGE, NR_REG_CB_ACTION_DELETE, NR_REG_CB_ACTION_FINAL].Perm
      CB_ACTIONS := .cons _ (.swap _ _ _)
  obtain ⟨cbs, hall, hinv, hregs⟩ := register_all_spec (fun a ha => hperm.mem_iff.1 ha) href.cbs
  refine ⟨{ reg := { s₀ with cbs }, nr_reg_client_list := ⟨[], fun _ => []⟩, opened := 0 }, ?_, ?_, ?_, rfl, rfl⟩
  · rw [nr_registry_server, hi]
    dsimp only
    rw [hall]
    rfl
  · exact ⟨⟨⟨href.sound.1.rep, href.sound.1.names, href.sound.1.block⟩, href.sound.2⟩, hinv, href.value⟩
  · refine ⟨hinv, fun n a c => ?_⟩
    rw [hregs, hcbs, init_regs]
    simp only [hperm.mem_iff]

theorem started_system {sys : System} (h : sys.Started) : sys.Ok := by
  obtain ⟨d, hd, href, hrel, hlist, hopen⟩ := server_starts
  obtain rfl : sys.daemon = d := by
    have heq := h.daemon
    rw [hd] at heq
    cases heq
    rfl
  refine ⟨⟨_, href⟩, hrel, ?_, ?_, fun fd _ => ?_⟩
  · rw [hlist]
    exact List.nodup_nil
  · rw [hlist]
    exact fun fd hfd => absurd hfd List.not_mem_nil
  · rw [hlist]
    exact ⟨rfl, h.taken fd, h.client fd⟩

/-! ## Every order of actions -/

/-- A set of names with everything above them. -/
def Rooted (K : Set Bytes) : Prop := ∀ n ∈ K, ∀ a, Ancestor a n → a ∈ K

theorem Rooted.replayOne {K : Set Bytes} (h : Rooted K) {e : Bytes × UInt8} (hl : LegalOne K e) :
    Rooted (Registry.replayOne K e) := by
  obtain ⟨name, action⟩ := e
  intro n hn m hm
  by_cases hadd : action = NR_REG_CB_ACTION_ADD
  · subst hadd
    rw [replayOne_add] at hn ⊢
    rcases hn with rfl | hn
    · exact .inr ((hl.1 rfl).2 m hm)
    · exact .inr (h n hn m hm)
  · by_cases hdel : action = NR_REG_CB_ACTION_DELETE
    · subst hdel
      rw [replayOne_delete] at hn ⊢
      exact ⟨h n hn.1 m hm, fun hc => hn.2 (covers_below hc hm)⟩
    · have hsame : ∀ K, Registry.replayOne K (name, action) = K := fun K => by
        rw [Registry.replayOne, if_neg hadd, if_neg hdel]
      rw [hsame] at hn ⊢
      exact h n hn m hm

/-- Whoever follows a part of a legal stream never has a name without the names
above it. -/
theorem Rooted.replay {K : Set Bytes} (h : Rooted K) {l : List (Bytes × UInt8)} (hl : Legal K l) :
    Rooted (Registry.replay K l) := by
  induction l generalizing K with
  | nil => exact h
  | cons e l ih => exact ih (h.replayOne hl.1) hl.2

section
variable {NR_SOCKET_WRITE : Conn → List Bytes → Bytes → Option Nat} {sys₀ sys₁ sys₂ sys₃ : System} {evs evs' : List (Action × Outcome)}

theorem run_ok (h₀ : sys₀.Started) (hrun : Run (act NR_SOCKET_WRITE) Allowed sys₀ evs sys₁) : sys₁.Ok :=
  hrun.inv System.Ok (started_system h₀) fun _ _ _ _ hs hok hst => act_ok hs hok hst

/-- A connection that was just made. -/
theorem registered_tracks (h : sys₁.Ok) {o : Outcome}
    (hreg : act NR_SOCKET_WRITE sys₁ (.register_for_callbacks true) = some (o, sys₂)) :
    Tracks sys₁.daemon.reg sys₁.daemon.opened sys₂ [] [] := by
  obtain ⟨hn, hsub, hlog, -⟩ := Broadcast.send_others (written NR_SOCKET_WRITE) h.nodup nr_reg_cleanup_dead_clients
  have hnot : sys₁.daemon.opened ∉ sys₁.daemon.nr_reg_client_list.listeners := fun hmem =>
    Nat.lt_irrefl _ (h.below _ hmem)
  obtain ⟨hl, ht, hc⟩ := h.fresh _ (Nat.le_refl _)
  cases hreg
  exact ⟨.same rfl rfl, by simp, rfl, .joined hn (fun hmem => hnot (hsub _ hmem)) ((hlog _ hnot).trans hl),
    Nat.lt_succ_self _, [], hc, List.nil_prefix, ht⟩

/-- What the client at the other end has raised. -/
theorem Tracks.raised {s : Reg} {fd : Conn} {sys : System} {news : List (Bytes × UInt8)} {ms : List Message}
    (h : Tracks s fd sys news ms) : (sys.client fd).raised <+: news.map Prod.swap ∧
      (fd ∈ sys.daemon.nr_reg_client_list.listeners → sys.taken fd = (sys.sent fd).length →
        (sys.client fd).raised = news.map Prod.swap ∧ (sys.client fd).buf = []) := by
  obtain ⟨pieces, hr, hp, hlen⟩ := h.client
  have hstream : sys.sent fd <+: stream ms := by
    obtain ⟨more, hmore⟩ := h.hears.start
    rw [System.sent, stream, List.flatMap_def, ← hmore, List.flatten_append]
    exact List.prefix_append _ _
  obtain ⟨hraised, hall⟩ := relay_exact h.ok (hp.trans hstream)
  rw [hr]
  constructor
  · rw [hraised, ← h.shown]
    exact (List.take_prefix _ ms).filterMap _
  · intro hmem htaken
    have hwhole : pieces.flatten = stream ms := by
      rw [hp.eq_of_length (hlen.symm.trans htaken), System.sent, h.hears.all hmem]
      rfl
    rw [← h.shown]
    exact hall hwhole

/-- However requests, lost connections and reads are ordered, where no write is
cut short: a client has raised the first of the events since it registered, each once and in their
order, so that a copy of the names it keeps never lacks a name above one it
has. When it has read what was written, and is still a client, the copy has the
names of the registry. No request hangs. -/
theorem clients_mirror (hw : Whole NR_SOCKET_WRITE) (h₀ : sys₀.Started) (hrun : Run (act NR_SOCKET_WRITE) Allowed sys₀ evs sys₁) {o : Outcome}
    (hreg : act NR_SOCKET_WRITE sys₁ (.register_for_callbacks true) = some (o, sys₂))
    (hrun' : Run (act NR_SOCKET_WRITE) Allowed sys₂ evs' sys₃) :
    ∃ news, sys₃.daemon.reg.events = sys₁.daemon.reg.events ++ news ∧
      (sys₃.client sys₁.daemon.opened).raised <+: news.map Prod.swap ∧
      Rooted (replay sys₁.daemon.reg.keys ((sys₃.client sys₁.daemon.opened).raised.map Prod.swap)) ∧
      (sys₁.daemon.opened ∈ sys₃.daemon.nr_reg_client_list.listeners →
        sys₃.taken sys₁.daemon.opened = (sys₃.sent sys₁.daemon.opened).length →
          (sys₃.client sys₁.daemon.opened).raised = news.map Prod.swap ∧
          replay sys₁.daemon.reg.keys ((sys₃.client sys₁.daemon.opened).raised.map Prod.swap) =
            sys₃.daemon.reg.keys) ∧
      ∀ i, Allowed sys₃ i → ∃ o sys', act NR_SOCKET_WRITE sys₃ i = some (o, sys') := by
  have hok₁ := run_ok h₀ hrun
  have hallowed : Allowed sys₁ (.register_for_callbacks true) := trivial
  have htracks := hrun'.inv (fun sys => sys.Ok ∧ ∃ news ms, Tracks sys₁.daemon.reg sys₁.daemon.opened sys news ms)
    ⟨act_ok hok₁ hallowed hreg, [], [], registered_tracks hok₁ hreg⟩
    fun sys i r sys' h hok hst => ⟨act_ok h.1 hok hst, by
      obtain ⟨hs, news, ms, ht⟩ := h
      exact ht.step hw hs hok hst⟩
  obtain ⟨hok₃, news, ms, ht⟩ := htracks
  obtain ⟨hpre, hall⟩ := ht.raised
  have hswap : ∀ l : List (Bytes × UInt8), (l.map Prod.swap).map Prod.swap = l := fun l => by simp
  refine ⟨news, ht.reports.events, hpre, ?_, fun hmem htaken => ?_, fun i => act_returns hok₃⟩
  · obtain ⟨a, ha⟩ := hok₁.refines
    have hroot : Rooted sys₁.daemon.reg.keys := fun n hn m hm => by
      show sys₁.daemon.reg.map m ≠ none
      rw [ha.sound.2.up n m hn hm]
      exact Option.some_ne_none _
    obtain ⟨rest, hrest⟩ := hpre.map Prod.swap
    rw [hswap] at hrest
    have hlegal := ht.reports.legal
    rw [← hrest] at hlegal
    exact hroot.replay (legal_append.1 hlegal).1
  · obtain ⟨hraised, -⟩ := hall hmem htaken
    rw [hraised, hswap]
    exact ⟨rfl, ht.reports.keys⟩

end

instance (c : Call) : Decidable (Announceable c) :=
  match c with
  | .fin name => inferInstanceAs (Decidable (nr_reg_is_valid name = .ok))
  | .set .. | .del _ | .get .. | .get_length _ | .get_type _ | .get_child_count _ | .get_children .. => isTrue trivial

instance (sys : System) (i : Action) : Decidable (Allowed sys i) :=
  match i with
  | .call c => inferInstanceAs (Decidable (Proper sys.daemon.reg c ∧ Announceable c))
  | .register_for_callbacks _ => isTrue trivial
  | .read fd n => inferInstanceAs (Decidable (0 < n ∧ sys.taken fd < (sys.sent fd).length))

/-- The first client is lost after one message; the second reads what was set
since it came, in two pieces. -/
theorem clients_mirror_second : ∃ (NR_SOCKET_WRITE : Conn → List Bytes → Bytes → Option Nat) (sys₁ sys₂ sys₃ : System) (o : Outcome),
    act NR_SOCKET_WRITE sys₁ (.register_for_callbacks true) = some (o, sys₂) ∧
      sys₃.daemon.nr_reg_client_list.listeners = [1] ∧
      (sys₃.client 1).raised = [(NR_REG_CB_ACTION_ADD, str "c"), (NR_REG_CB_ACTION_ADD, str "c.d")] ∧
      replay sys₁.daemon.reg.keys [(str "c", NR_REG_CB_ACTION_ADD), (str "c.d", NR_REG_CB_ACTION_ADD)] =
        sys₃.daemon.reg.keys := by
  let W : Conn → List Bytes → Bytes → Option Nat := fun fd log buffer =>
    if fd ≠ 0 ∨ log.length < 1 then some buffer.length else none
  have hex : (nr_registry_server.bind fun x => if x.1 = .ok then
      (exec (act W) (fun sys i => Allowed sys i) ⟨x.2, fun _ => 0, fun _ => { buf := [], raised := [] }⟩
        [.register_for_callbacks true, .call (.set (str "a.b") (.bytes [1]))]).bind fun y =>
      (act W y.2 (.register_for_callbacks true)).bind fun z =>
        (exec (act W) (fun sys i => Allowed sys i) z.2
          [.call (.set (str "c.d") (.bytes [2])), .read 1 5, .read 1 20]).bind fun w =>
        if w.2.daemon.nr_reg_client_list.listeners = [1] ∧ w.2.taken 1 = (w.2.sent 1).length ∧ y.2.daemon.opened = 1 ∧
          (w.2.client 1).raised = [(NR_REG_CB_ACTION_ADD, str "c"), (NR_REG_CB_ACTION_ADD, str "c.d")]
        then some () else none
      else none).isSome = true := by decide +kernel
  obtain ⟨u, hu⟩ := Option.isSome_iff_exists.1 hex
  obtain ⟨⟨r, d⟩, hd, hu⟩ := Option.bind_eq_some_iff.1 hu
  split at hu
  · rename_i hr
    obtain rfl : r = .ok := hr
    obtain ⟨⟨os, sys₁⟩, h₁, hu⟩ := Option.bind_eq_some_iff.1 hu
    obtain ⟨⟨o, sys₂⟩, h₂, hu⟩ := Option.bind_eq_some_iff.1 hu
    obtain ⟨⟨os', sys₃⟩, h₃, hu⟩ := Option.bind_eq_some_iff.1 hu
    split at hu
    · rename_i hc
      obtain ⟨hlist, htaken, hone, hraised⟩ := hc
      have hwhole : Whole W := by
        intro fd log buffer n hn
        simp only [W] at hn
        split at hn
        · exact (Option.some.inj hn).symm
        · cases hn
      have hrun : Run (act W) Allowed _ _ sys₁ := (Run.exec .nil h₁).mono fun _ _ h => of_decide_eq_true h
      have hrun' : Run (act W) Allowed _ _ sys₃ := (Run.exec .nil h₃).mono fun _ _ h => of_decide_eq_true h
      obtain ⟨news, -, -, -, hall, -⟩ := clients_mirror hwhole ⟨hd, fun _ => rfl, fun _ => rfl⟩ hrun h₂ hrun'
      dsimp only at hlist htaken hone hraised
      rw [hone] at hall
      have hmirror := (hall (by rw [hlist]; exact List.mem_singleton_self 1) htaken).2
      rw [hraised] at hmirror
      exact ⟨W, sys₁, sys₂, sys₃, o, h₂, hlist, hraised, hmirror⟩
    · cases hu
  · cases hu

end Nrappkit.Service
