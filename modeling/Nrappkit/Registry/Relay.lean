import Nrappkit.Registry.Callbacks
import Nrappkit.Lib.Lines
import Mathlib.Data.List.Induction
import Mathlib.Data.List.TakeWhile
/-!
# The event stream

`registryd.c` writes each event to its clients as a line, and now and then a
newline to see which of them are still there; `regrpc_client_cb.c` reads the
stream in pieces and raises the events again. The `c_buf` of the client is the
bytes it has not read; a socket delivers what is written in order.
-/
open Lib

namespace Nrappkit.Registry

/-! ## The server -/

def nr_reg_action_name (action : UInt8) : Bytes :=
  if action = NR_REG_CB_ACTION_ADD then str "add"
  else if action = NR_REG_CB_ACTION_DELETE then str "delete"
  else if action = NR_REG_CB_ACTION_CHANGE then str "change"
  else if action = NR_REG_CB_ACTION_FINAL then str "final"
  else str "*Unknown*"

/-- What `snprintf` leaves in a buffer, before the terminator. -/
def snprintf (size : Nat) (text : Bytes) : Bytes := text.take (size - 1)

/-- The bytes written to each client. -/
def nr_reg_send_event (action : UInt8) (name : Bytes) : Bytes :=
  let action_str := nr_reg_action_name action
  let bufferlen := name.length + action_str.length + 5
  snprintf bufferlen (action_str ++ str " " ++ name ++ str "\n\r")

def nr_reg_cleanup_dead_clients : Bytes := str "\n"

/-- What the server writes. -/
inductive Message where
  | event (action : UInt8) (name : Bytes)
  | cleanup
  deriving DecidableEq

def Message.bytes : Message → Bytes
  | event action name => nr_reg_send_event action name
  | cleanup => nr_reg_cleanup_dead_clients

/-- The event of a message. -/
def Message.event? : Message → Option (UInt8 × Bytes)
  | event action name => some (action, name)
  | cleanup => none

def stream (ms : List Message) : Bytes := ms.flatMap Message.bytes

/-! ## The client -/

def isTerminator (c : UInt8) : Bool := c = 10 || c = 13

/-- `tolower` of the C locale. -/
def tolower (c : UInt8) : UInt8 := if 65 ≤ c && c ≤ 90 then c + 32 else c

/-- `!strncasecmp(word, line, strlen(word))` -/
def startsWith (word line : Bytes) : Bool := (line.take word.length).map tolower = word.map tolower

/-- The event that is raised for a line, if it is one. -/
def nr_reg_cb_process_line (line : Bytes) : Except Status (UInt8 × Bytes) :=
  if startsWith (str "change ") line then .ok (NR_REG_CB_ACTION_CHANGE, line.drop 7)
  else if startsWith (str "add ") line then .ok (NR_REG_CB_ACTION_ADD, line.drop 4)
  else if startsWith (str "delete ") line then .ok (NR_REG_CB_ACTION_DELETE, line.drop 7)
  else if startsWith (str "final ") line then .ok (NR_REG_CB_ACTION_FINAL, line.drop 6)
  else .error .R_BAD_DATA

/-- The bytes of a buffer up to the first terminator. -/
def cString (buf : Bytes) : Bytes := buf.takeWhile (· ≠ 0)

/-- The loop from `parse_next_line`, for at most `n` lines: the lines that are
not empty, and the bytes left in the buffer. -/
def parse_lines : Nat → Bytes → List Bytes × Bytes
  | 0, buf => ([], buf)
  | n + 1, buf =>
    match buf.findIdx? isTerminator with
    | none => ([], buf)
    | some i =>
      let r := parse_lines n (buf.drop (i + 1))
      (if i > 0 then cString (buf.take i) :: r.1 else r.1, r.2)

structure Client where
  buf : Bytes
  /-- The arguments of `nr_reg_raise_event`, in order. -/
  raised : List (UInt8 × Bytes)

/-- The callback, when `nr_c_buf_nb_fill` read `piece`. -/
def nr_reg_cb_async_wait_cb (s : Client) (piece : Bytes) : Client :=
  let buf := s.buf ++ piece
  let r := parse_lines (buf.length + 1) buf
  { buf := r.2, raised := s.raised ++ r.1.filterMap fun line => (nr_reg_cb_process_line line).toOption }

/-- A client that reads the pieces one by one. -/
def receive (pieces : List Bytes) : Client := pieces.foldl nr_reg_cb_async_wait_cb { buf := [], raised := [] }

/-! ## Pieces of the stream -/

/-- The events of the lines, without the empty ones. -/
def eventsOf (lines : List Bytes) : List (UInt8 × Bytes) :=
  (lines.filter (· ≠ [])).filterMap fun line => (nr_reg_cb_process_line (cString line)).toOption

/-- `parse_lines` scans the buffer. -/
theorem parse_lines_eq {n : Nat} {buf : Bytes} (hn : buf.length < n) :
    parse_lines n buf = (((scan isTerminator [] buf).1.filter (· ≠ [])).map cString, (scan isTerminator [] buf).2) := by
  induction n generalizing buf with
  | zero => exact absurd hn (Nat.not_lt_zero _)
  | succ n ih =>
    rw [parse_lines]
    split
    · rename_i hnone
      rw [List.findIdx?_eq_none_iff] at hnone
      rw [scan_open [] hnone]
      rfl
    · rename_i i hsome
      obtain ⟨hi, ht, hbefore⟩ := List.findIdx?_eq_some_iff_getElem.1 hsome
      have hsplit : buf = buf.take i ++ buf[i] :: buf.drop (i + 1) := by
        rw [List.getElem_cons_drop, List.take_append_drop]
      have hno : ∀ c ∈ buf.take i, isTerminator c = false := by
        intro c hc
        obtain ⟨j, hj, rfl⟩ := List.mem_iff_getElem.1 hc
        rw [List.length_take] at hj
        rw [List.getElem_take]
        exact Bool.eq_false_iff.2 (hbefore j (by omega))
      have hrest : (buf.drop (i + 1)).length < n := by
        rw [List.length_drop]
        omega
      have hscan : scan isTerminator [] (buf.take i ++ buf[i] :: buf.drop (i + 1)) = _ :=
        scan_close [] hno ht (buf.drop (i + 1))
      rw [← hsplit] at hscan
      rw [hscan, ih hrest]
      dsimp only
      rw [List.nil_append]
      by_cases hz : i = 0
      · rw [if_neg (by omega), hz]
        simp
      · have hne : buf.take i ≠ [] := by
          rw [ne_eq, List.take_eq_nil_iff]
          rintro (h0 | h0)
          · exact hz h0
          · rw [h0] at hi
            cases hi
        rw [if_pos (by omega), List.filter_cons_of_pos (by simpa using hne)]
        rfl

/-- What the client has after reading the pieces: the events of the lines of
the whole, and the line that is open. -/
theorem receive_eq (pieces : List Bytes) : receive pieces =
    { buf := (scan isTerminator [] pieces.flatten).2, raised := eventsOf (scan isTerminator [] pieces.flatten).1 } := by
  induction pieces using List.reverseRecOn with
  | nil => rfl
  | append_singleton pieces piece ih =>
    have hstep : receive (pieces ++ [piece]) = nr_reg_cb_async_wait_cb (receive pieces) piece := by
      rw [receive, List.foldl_append]
      rfl
    rw [hstep, ih, nr_reg_cb_async_wait_cb]
    dsimp only
    rw [parse_lines_eq (Nat.lt_succ_self _), List.flatten_append, scan_append [] pieces.flatten]
    -- what is open is scanned again with the piece
    have hopen : ∀ c ∈ (scan isTerminator [] pieces.flatten).2, isTerminator c = false :=
      scan_rest [] pieces.flatten (by simp)
    rw [scan_append [], scan_open [] hopen]
    simp [eventsOf, List.filterMap_append, List.filterMap_map]

/-! ## Messages -/

/-- One of the four actions, and a valid name. -/
def Message.Ok : Message → Prop
  | event action name => action ∈ CB_ACTIONS ∧ nr_reg_is_valid name = .ok
  | cleanup => True

instance (m : Message) : Decidable m.Ok :=
  match m with
  | .event action name => inferInstanceAs (Decidable (action ∈ CB_ACTIONS ∧ nr_reg_is_valid name = .ok))
  | .cleanup => isTrue trivial

/-- A byte of a name is neither a terminator of a line nor of a string. -/
theorem legal_plain {c : UInt8} (h : legalByte c = true) : isTerminator c = false ∧ c ≠ 0 := by
  constructor
  · rw [Bool.eq_false_iff]
    intro ht
    rcases (by simpa [isTerminator] using ht : c = 10 ∨ c = 13) with rfl | rfl
    · cases h
    · cases h
  · rintro rfl
    cases h

/-- The line of an event. -/
def lineOf (action : UInt8) (name : Bytes) : Bytes := nr_reg_action_name action ++ str " " ++ name

/-- `bufferlen` is enough for the message. -/
theorem send_event_eq (action : UInt8) (name : Bytes) :
    nr_reg_send_event action name = lineOf action name ++ [10, 13] := by
  have htail : str "\n\r" = [10, 13] := by decide
  have hspace : (str " ").length = 1 := by decide
  unfold nr_reg_send_event snprintf lineOf
  rw [htail, List.take_of_length_le]
  simp only [List.length_append, List.length_cons, List.length_nil, hspace]
  omega

theorem action_name_plain {action : UInt8} (h : action ∈ CB_ACTIONS) :
    ∀ c ∈ nr_reg_action_name action ++ str " ", isTerminator c = false ∧ c ≠ 0 := by
  have hall : CB_ACTIONS.all fun a => (nr_reg_action_name a ++ str " ").all fun c => !isTerminator c && c != 0 := by decide
  intro c hc
  have hplain := List.all_eq_true.1 (List.all_eq_true.1 hall action h) c hc
  simpa using hplain

theorem lineOf_plain {action : UInt8} {name : Bytes} (ha : action ∈ CB_ACTIONS) (hv : nr_reg_is_valid name = .ok) :
    ∀ c ∈ lineOf action name, isTerminator c = false ∧ c ≠ 0 := by
  intro c hc
  rcases List.mem_append.1 hc with hc | hc
  · exact action_name_plain ha c hc
  · exact legal_plain ((is_valid_iff.1 hv).2.2.2 c hc)

/-- The client reads the action and the name back. -/
theorem process_lineOf {action : UInt8} (ha : action ∈ CB_ACTIONS) (name : Bytes) :
    nr_reg_cb_process_line (lineOf action name) = .ok (action, name) := by
  simp only [CB_ACTIONS, List.mem_cons, List.not_mem_nil, or_false] at ha
  rcases ha with rfl | rfl | rfl | rfl
  · rfl
  · rfl
  · rfl
  · rfl

/-- A message is a line, maybe an empty one, and at most one more terminator. -/
theorem Message.bytes_eq {m : Message} (h : m.Ok) : ∃ line tail, m.bytes = line ++ 10 :: tail ∧
    (∀ c ∈ line, isTerminator c = false) ∧ (tail = [] ∨ tail = [13]) ∧ eventsOf [line] = m.event?.toList := by
  cases m with
  | event action name =>
    obtain ⟨ha, hv⟩ := h
    have hplain := lineOf_plain ha hv
    refine ⟨lineOf action name, [13], send_event_eq action name, fun c hc => (hplain c hc).1, .inr rfl, ?_⟩
    have hne : lineOf action name ≠ [] := by
      have hspace : (32 : UInt8) ∈ str " " := by decide
      exact List.ne_nil_of_mem (List.mem_append_left name (List.mem_append_right _ hspace))
    have hstr : cString (lineOf action name) = lineOf action name := by
      rw [cString, List.takeWhile_eq_self_iff]
      exact fun c hc => by simpa using (hplain c hc).2
    have hline : (nr_reg_cb_process_line (cString (lineOf action name))).toOption = some (action, name) := by
      rw [hstr, process_lineOf ha]
      rfl
    rw [eventsOf, List.filter_cons_of_pos (by simpa using hne)]
    exact List.filterMap_cons_some (f := fun line => (nr_reg_cb_process_line (cString line)).toOption) hline
  | cleanup => exact ⟨[], [], rfl, by simp, .inl rfl, rfl⟩

/-- The stream starts with the line of its first message. -/
theorem stream_cons {m : Message} (h : m.Ok) (ms : List Message) : ∃ line tail,
    stream (m :: ms) = line ++ 10 :: (tail ++ stream ms) ∧ (∀ c ∈ line, isTerminator c = false) ∧
      (tail = [] ∨ tail = [13]) ∧ eventsOf [line] = m.event?.toList := by
  obtain ⟨line, tail, hbytes, hplain, htail, hevent⟩ := Message.bytes_eq h
  refine ⟨line, tail, ?_, hplain, htail, hevent⟩
  rw [stream, List.flatMap_cons, hbytes, List.append_assoc]
  rfl

theorem eventsOf_cons (line : Bytes) (lines : List Bytes) :
    eventsOf (line :: lines) = eventsOf [line] ++ eventsOf lines := by
  rw [eventsOf, eventsOf, eventsOf, ← List.filterMap_append, ← List.filter_append]
  rfl

/-- A terminator by itself closes an empty line, which is skipped. -/
theorem eventsOf_empty (rest : Bytes) {t : UInt8} (ht : isTerminator t = true) :
    eventsOf (scan isTerminator [] (t :: rest)).1 = eventsOf (scan isTerminator [] rest).1 := by
  rw [scan, if_pos ht, eventsOf_cons]
  rfl

theorem count_newline_of_plain {l : Bytes} (h : ∀ c ∈ l, isTerminator c = false) : l.count 10 = 0 := by
  rw [List.count_eq_zero]
  intro hmem
  exact absurd (h 10 hmem) (by decide)

/-- Of a part of the stream, the lines whose newline has arrived are the
messages there are. -/
theorem eventsOf_part {ms : List Message} (hok : ∀ m ∈ ms, m.Ok) {part : Bytes} (hp : part <+: stream ms) :
    eventsOf (scan isTerminator [] part).1 = (ms.take (part.count 10)).filterMap Message.event? := by
  induction ms generalizing part with
  | nil =>
    obtain rfl : part = [] := List.prefix_nil.1 hp
    rfl
  | cons m ms ih =>
    obtain ⟨line, tail, hstream, hplain, htail, hevent⟩ := stream_cons (hok m (by simp)) ms
    rw [hstream] at hp
    rcases List.prefix_or_prefix_of_prefix hp (List.prefix_append line _) with hin | ⟨part', rfl⟩
    · -- the newline of this line has not arrived
      have hno : ∀ c ∈ part, isTerminator c = false := fun c hc => hplain c (hin.subset hc)
      rw [scan_open [] hno, count_newline_of_plain hno]
      rfl
    · have hp' := (List.prefix_append_right_inj line).1 hp
      cases part' with
      | nil =>
        rw [List.append_nil, scan_open [] hplain, count_newline_of_plain hplain]
        rfl
      | cons c rest =>
        obtain ⟨rfl, hrest⟩ := List.cons_prefix_cons.1 hp'
        have hcount : (line ++ 10 :: rest).count 10 = rest.count 10 + 1 := by
          rw [List.count_append, count_newline_of_plain hplain, List.count_cons_self, Nat.zero_add]
        have hih : eventsOf (scan isTerminator [] rest).1 = (ms.take (rest.count 10)).filterMap Message.event? := by
          rcases htail with rfl | rfl
          · exact ih (fun m hm => hok m (by simp [hm])) hrest
          · cases rest with
            | nil => rfl
            | cons d rest =>
              obtain ⟨rfl, hrest'⟩ := List.cons_prefix_cons.1 hrest
              rw [eventsOf_empty rest (by decide), List.count_cons_of_ne (by decide)]
              exact ih (fun m hm => hok m (by simp [hm])) hrest'
        have hscan : scan isTerminator [] (line ++ 10 :: rest) = _ := scan_close [] hplain (by decide) rest
        rw [hscan, hcount, eventsOf_cons, List.nil_append, hevent, hih, List.take_succ_cons]
        cases hm : m.event? with
        | none => rw [List.filterMap_cons_none hm]; rfl
        | some e => rw [List.filterMap_cons_some hm]; rfl

/-- Every message brings one newline. -/
theorem count_newline_stream {ms : List Message} (hok : ∀ m ∈ ms, m.Ok) : (stream ms).count 10 = ms.length := by
  induction ms with
  | nil => rfl
  | cons m ms ih =>
    obtain ⟨line, tail, hstream, hplain, htail, -⟩ := stream_cons (hok m (by simp)) ms
    have htail' : tail.count 10 = 0 := by
      rcases htail with rfl | rfl
      · rfl
      · rfl
    rw [hstream, List.count_append, count_newline_of_plain hplain, List.count_cons_self, List.count_append, htail',
      ih fun m hm => hok m (by simp [hm]), List.length_cons]
    omega

/-- The stream ends with a terminator. -/
theorem scan_stream_rest {ms : List Message} (hok : ∀ m ∈ ms, m.Ok) : (scan isTerminator [] (stream ms)).2 = [] := by
  induction ms with
  | nil => rfl
  | cons m ms ih =>
    obtain ⟨line, tail, hstream, hplain, htail, -⟩ := stream_cons (hok m (by simp)) ms
    have hih := ih fun m hm => hok m (by simp [hm])
    have hscan : scan isTerminator [] (line ++ 10 :: (tail ++ stream ms)) = _ :=
      scan_close [] hplain (by decide) (tail ++ stream ms)
    rw [hstream, hscan]
    rcases htail with rfl | rfl
    · exact hih
    · rw [List.cons_append, List.nil_append, scan, if_pos (by decide)]
      exact hih

/-- However the stream is cut into pieces, the client raises the events whose
newline has arrived, in order, and nothing else; after the whole stream it has
raised them all and keeps nothing. -/
theorem relay_exact {ms : List Message} (hok : ∀ m ∈ ms, m.Ok) {pieces : List Bytes}
    (hp : pieces.flatten <+: stream ms) :
    (receive pieces).raised = (ms.take (pieces.flatten.count 10)).filterMap Message.event? ∧
      (pieces.flatten = stream ms →
        (receive pieces).raised = ms.filterMap Message.event? ∧ (receive pieces).buf = []) := by
  have hraised : (receive pieces).raised = (ms.take (pieces.flatten.count 10)).filterMap Message.event? := by
    rw [receive_eq]
    exact eventsOf_part hok hp
  refine ⟨hraised, fun hall => ⟨?_, ?_⟩⟩
  · rw [hraised, hall, count_newline_stream hok, List.take_length]
  · rw [receive_eq, hall]
    exact scan_stream_rest hok

/-- The root added, a check for dead clients, and a change that arrives in
three pieces, cut in a name and between the two terminators. -/
theorem relay_exact_in_pieces :
    (receive [str "add \n\r\nchange a", str ".b\n"]).raised =
        [(NR_REG_CB_ACTION_ADD, []), (NR_REG_CB_ACTION_CHANGE, str "a.b")] ∧
      (receive [str "add \n\r\nchange a"]).raised = [(NR_REG_CB_ACTION_ADD, [])] := by
  have hok : ∀ m ∈ [Message.event NR_REG_CB_ACTION_ADD [], .cleanup, .event NR_REG_CB_ACTION_CHANGE (str "a.b")],
      m.Ok := by decide
  constructor
  · exact (relay_exact hok (by decide)).1
  · exact (relay_exact hok (by decide)).1

end Nrappkit.Registry
